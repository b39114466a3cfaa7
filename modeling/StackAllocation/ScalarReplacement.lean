import Mathlib.Data.Int.Notation
import Mathlib.Data.List.Nodup
import Mathlib.Logic.Function.Basic
import Mathlib.Data.Nat.Notation

/-!
# Scalar replacement gives up

`scalar_replacement` describes an allocation at each safepoint that uses it: it adds the values of
the fields to the inputs of the safepoint and puts a `SafePointScalarObject` in the place of the
result. If it does not find the value of some field it takes all that back, from the description's
index and number of fields. Every safepoint is then as it was before (`scalarReplacement_rollback`).
-/

namespace StackAllocation

/-- A `SafePointScalarObject`. -/
structure SafePointScalarObject : Type where
  /-- the allocation that it describes -/
  alloc : ℕ
  /-- `_first_index`, from `scloff` on -/
  firstIndex : ℕ
  nFields : ℕ
  stackAllocated : Bool
  deriving DecidableEq

/-- An input of a safepoint. -/
inductive SafepointInput : Type where
  | none
  | node (n : ℕ)
  | scalarObject (sobj : SafePointScalarObject)
  deriving DecidableEq

/-- The last input is deleted, some times. -/
def delLastInputs : ℕ → List SafepointInput → List SafepointInput
  | 0, inputs => inputs
  | k + 1, inputs => delLastInputs k inputs.dropLast

/-- A safepoint, and its youngest `JVMState`. -/
structure SafePoint : Type where
  inputs : List SafepointInput
  /-- `jvms()->debug_start()` -/
  debugStart : ℕ
  scloff : ℕ
  endoff : ℕ
  deriving DecidableEq

/-- What `scalar_replacement` looks up for an allocation. -/
structure ReplacedAlloc : Type where
  alloc : ℕ
  /-- `result_cast()` -/
  res : ℕ
  /-- the offset of each field or element -/
  fields : List ℤ
  useCompressedOops : Bool
  isReference : ℤ → Bool
  /-- `value_from_mem`, for the memory and the control of a safepoint -/
  valueFromMem : ℕ → ℤ → Option ℕ
  /-- the input of an `EncodeP`, or a new `DecodeN` -/
  decode : ℕ → ℕ

namespace SafePoint

variable (sfpt : SafePoint)

/-- `req()` -/
def req : ℕ := sfpt.inputs.length

/-- `add_req` -/
def addReq (input : SafepointInput) : SafePoint := { sfpt with inputs := sfpt.inputs ++ [input] }

/-- `del_req` of the last input, `k` times. -/
def delLast (k : ℕ) : SafePoint := { sfpt with inputs := delLastInputs k sfpt.inputs }

/-- Change the inputs from `debug_start` to `debug_end`. -/
def mapDebug (f : SafepointInput → SafepointInput) : SafePoint :=
  { sfpt with
    inputs := sfpt.inputs.mapIdx fun i input =>
      if sfpt.debugStart ≤ i ∧ i < sfpt.endoff then f input else input }

/-- `set_endoff(req())` -/
def setEndoff : SafePoint := { sfpt with endoff := sfpt.req }

/-- The result is replaced by its description. -/
def describe (res : ℕ) (sobj : SafePointScalarObject) (input : SafepointInput) : SafepointInput :=
  if input = .node res then .scalarObject sobj else input

/-- A description with the fields that were at the end is replaced by the result. -/
def undescribe (res nfields : ℕ) : SafepointInput → SafepointInput
  | .scalarObject scobj =>
    if sfpt.scloff + scobj.firstIndex = sfpt.req ∧ scobj.nFields = nfields then .node res
    else .scalarObject scobj
  | input => input

/-- `adjust_safepoint_jvms` -/
def adjustJvms (res : ℕ) (sobj : SafePointScalarObject) : SafePoint :=
  sfpt.setEndoff.mapDebug (describe res sobj)

/-- A processed safepoint is rolled back. -/
def rollback (res nfields : ℕ) : SafePoint :=
  let sfpt := (sfpt.delLast nfields).setEndoff
  sfpt.mapDebug (sfpt.undescribe res nfields)

end SafePoint

namespace ReplacedAlloc

variable (A : ReplacedAlloc)

/-- The node that is added for the value of a field. -/
def fieldInput (offset : ℤ) (value : ℕ) : ℕ :=
  if A.useCompressedOops && A.isReference offset then A.decode value else value

/-- The fields of a safepoint: all of them are added, or how many were when one was not found. -/
def addFields (s : ℕ) : List ℤ → ℕ → SafePoint → SafePoint × Option ℕ
  | [], _, sfpt => (sfpt, none)
  | offset :: rest, j, sfpt =>
    match A.valueFromMem s offset with
    | none => (sfpt, some j)
    | some value => addFields s rest (j + 1) (sfpt.addReq (.node (A.fieldInput offset value)))

/-- The description of the allocation at a safepoint. -/
def scalarObject (sfpt : SafePoint) : SafePointScalarObject where
  alloc := A.alloc
  firstIndex := sfpt.req - sfpt.scloff
  nFields := A.fields.length
  stackAllocated := false

/-- The loop of `scalar_replacement`, over the safepoints that are left and those that are done, the
last one first. -/
def scalarReplacementLoop : List ℕ → List ℕ → (ℕ → SafePoint) → Bool × (ℕ → SafePoint)
  | [], _, G => (true, G)
  | s :: rest, done, G =>
    match A.addFields s A.fields 0 (G s) with
    | (sfpt, none) =>
      scalarReplacementLoop rest (if s ∈ done then done else s :: done)
        (Function.update G s (sfpt.adjustJvms A.res (A.scalarObject (G s))))
    | (sfpt, some j) =>
      (false, done.foldl (fun G d => Function.update G d ((G d).rollback A.res A.fields.length))
        (Function.update G s (sfpt.delLast j)))

/-- `scalar_replacement`; the safepoints are popped from the end of the list. -/
def scalarReplacement (safepoints : List ℕ) (G : ℕ → SafePoint) : Bool × (ℕ → SafePoint) :=
  A.scalarReplacementLoop safepoints.reverse [] G

end ReplacedAlloc

/-! ## What is taken back

A processed safepoint has the values of the fields at its end and the description in the place of
the result. To delete as many inputs as were added and to replace the description by the result is
the inverse of both. -/

/-- The debug info of a safepoint stands last, and what it describes is there: of a scalar replaced
object the fields, of a stack object the description. -/
structure SafePoint.WellFormed (sfpt : SafePoint) : Prop where
  endoff_eq : sfpt.endoff = sfpt.req
  scloff_le : sfpt.scloff ≤ sfpt.req
  described : ∀ o, .scalarObject o ∈ sfpt.inputs →
    if o.stackAllocated then sfpt.scloff + o.firstIndex < sfpt.req
    else sfpt.scloff + o.firstIndex + o.nFields ≤ sfpt.req

theorem delLastInputs_append (l : List SafepointInput) {l' : List SafepointInput} {k : ℕ}
    (h : l'.length = k) : delLastInputs k (l ++ l') = l := by
  induction k generalizing l' with
  | zero =>
    obtain rfl := List.length_eq_zero_iff.1 h
    exact List.append_nil l
  | succ k ih =>
    have hne : l' ≠ [] := List.ne_nil_of_length_eq_add_one h
    rw [delLastInputs, List.dropLast_append_of_ne_nil hne]
    refine ih ?_
    rw [List.length_dropLast, h]
    rfl

namespace SafePoint

variable {sfpt : SafePoint}

theorem req_mapDebug (f : SafepointInput → SafepointInput) : (sfpt.mapDebug f).req = sfpt.req :=
  List.length_mapIdx

/-- What is changed and changed back stays as it is. -/
theorem mapDebug_mapDebug {f g : SafepointInput → SafepointInput}
    (h : ∀ input ∈ sfpt.inputs, g (f input) = input) : (sfpt.mapDebug f).mapDebug g = sfpt := by
  obtain ⟨l, debugStart, scloff, endoff⟩ := sfpt
  rw [mapDebug, mapDebug]
  congr 1
  refine List.ext_getElem? fun i => ?_
  rw [List.getElem?_mapIdx, List.getElem?_mapIdx]
  cases hi : l[i]? with
  | none => rfl
  | some input =>
    refine congrArg some ?_
    dsimp only
    split
    · exact h input (List.mem_of_getElem? hi)
    · rfl

/-- Without the fields the safepoint is as it was, but that its result is described. -/
theorem delLast_adjustJvms (hend : sfpt.endoff = sfpt.req) {added : List SafepointInput} {k : ℕ}
    (hlen : added.length = k) (res : ℕ) (sobj : SafePointScalarObject) :
    ((adjustJvms { sfpt with inputs := sfpt.inputs ++ added } res sobj).delLast k).setEndoff =
      sfpt.mapDebug (describe res sobj) := by
  obtain ⟨l, debugStart, scloff, endoff⟩ := sfpt
  obtain rfl : endoff = l.length := hend
  let shown : ℕ → SafepointInput → SafepointInput := fun i input =>
    if debugStart ≤ i ∧ i < l.length then describe res sobj input else input
  have hinputs : delLastInputs k ((l ++ added).mapIdx fun i input =>
      if debugStart ≤ i ∧ i < (l ++ added).length then describe res sobj input else input) =
        l.mapIdx shown := by
    rw [List.mapIdx_append, delLastInputs_append _ (List.length_mapIdx.trans hlen)]
    refine List.ext_getElem? fun i => ?_
    rw [List.getElem?_mapIdx, List.getElem?_mapIdx]
    cases hi : l[i]? with
    | none => rfl
    | some input =>
      obtain ⟨hlt, -⟩ := List.getElem?_eq_some_iff.1 hi
      have hlt' : i < (l ++ added).length := by
        rw [List.length_append]
        exact Nat.lt_add_right _ hlt
      simp only [shown, hlt, hlt', and_true]
  refine (congrArg (fun inputs => mk inputs debugStart scloff inputs.length) hinputs).trans ?_
  exact congrArg (mk (l.mapIdx shown) debugStart scloff) List.length_mapIdx

end SafePoint

namespace ReplacedAlloc

variable {A : ReplacedAlloc}

/-- What the fields add to a safepoint. -/
theorem addFields_spec (s : ℕ) (fields : List ℤ) (j : ℕ) (sfpt : SafePoint) :
    ∃ added : List SafepointInput,
      (A.addFields s fields j sfpt).1 = { sfpt with inputs := sfpt.inputs ++ added } ∧
      ((A.addFields s fields j sfpt).2 = none ∧ added.length = fields.length ∨
        (A.addFields s fields j sfpt).2 = some (j + added.length) ∧ fields ≠ []) := by
  induction fields generalizing j sfpt with
  | nil =>
    refine ⟨[], ?_, .inl ⟨rfl, rfl⟩⟩
    rw [List.append_nil]
    rfl
  | cons offset rest ih =>
    rw [addFields]
    split
    · refine ⟨[], ?_, .inr ⟨rfl, List.cons_ne_nil offset rest⟩⟩
      rw [List.append_nil]
    · next value _ =>
      obtain ⟨added, hinputs, hout⟩ := ih (j + 1) (sfpt.addReq (.node (A.fieldInput offset value)))
      refine ⟨.node (A.fieldInput offset value) :: added, ?_, ?_⟩
      · rw [hinputs, SafePoint.addReq, List.append_assoc]
        rfl
      · obtain ⟨hnone, hlen⟩ | ⟨hsome, -⟩ := hout
        · exact .inl ⟨hnone, congrArg (· + 1) hlen⟩
        · refine .inr ⟨?_, List.cons_ne_nil offset rest⟩
          rw [hsome, List.length_cons]
          congr 1
          omega

/-- A safepoint whose fields are all added and that is then rolled back is as it was. -/
theorem rollback_adjustJvms {sfpt : SafePoint} (h : sfpt.WellFormed) {added : List SafepointInput}
    (hlen : added.length = A.fields.length) (hne : A.fields ≠ []) :
    (SafePoint.adjustJvms { sfpt with inputs := sfpt.inputs ++ added } A.res
      (A.scalarObject sfpt)).rollback A.res A.fields.length = sfpt := by
  rw [SafePoint.rollback, SafePoint.delLast_adjustJvms h.endoff_eq hlen]
  refine SafePoint.mapDebug_mapDebug fun input hinput => ?_
  have hpos : A.fields.length ≠ 0 := fun h0 => hne (List.length_eq_zero_iff.1 h0)
  rw [SafePoint.describe]
  split
  · next hres =>
    have hfirst : sfpt.scloff + (A.scalarObject sfpt).firstIndex =
        (sfpt.mapDebug (SafePoint.describe A.res (A.scalarObject sfpt))).req := by
      rw [SafePoint.req_mapDebug]
      exact Nat.add_sub_of_le h.scloff_le
    exact (if_pos ⟨hfirst, rfl⟩).trans hres.symm
  · cases input with
    | none => rfl
    | node n => rfl
    | scalarObject o =>
      have ho := h.described o hinput
      rw [SafePoint.undescribe, if_neg]
      rw [SafePoint.req_mapDebug]
      rintro ⟨hfirst, hn⟩
      have hfirst' : sfpt.scloff + o.firstIndex = sfpt.req := hfirst
      split at ho
      · omega
      · omega

/-- All processed safepoints are rolled back. -/
theorem foldl_rollback {G G₀ : ℕ → SafePoint} {done : List ℕ} {nfields : ℕ} (hnodup : done.Nodup)
    (hdone : ∀ d ∈ done, (G d).rollback A.res nfields = G₀ d)
    (hother : ∀ s, s ∉ done → G s = G₀ s) :
    done.foldl (fun G d => Function.update G d ((G d).rollback A.res nfields)) G = G₀ := by
  induction done generalizing G with
  | nil => exact funext fun s => hother s List.not_mem_nil
  | cons d done ih =>
    obtain ⟨hd, hnodup⟩ := List.nodup_cons.1 hnodup
    rw [List.foldl_cons]
    refine ih hnodup (fun e he => ?_) fun s hs => ?_
    · have hne : e ≠ d := fun heq => hd (heq ▸ he)
      rw [Function.update_of_ne hne]
      exact hdone e (List.mem_cons_of_mem d he)
    · by_cases hsd : s = d
      · rw [hsd, Function.update_self]
        exact hdone d List.mem_cons_self
      · rw [Function.update_of_ne hsd]
        exact hother s fun hmem => (List.mem_cons.1 hmem).elim hsd hs

/-- The loop, from safepoints that are processed and others that are as they were. -/
theorem scalarReplacementLoop_rollback {G G₀ : ℕ → SafePoint} {rest done : List ℕ}
    (hwell : ∀ s ∈ rest, (G₀ s).WellFormed) (hrest : rest.Nodup) (hnodup : done.Nodup)
    (hdisjoint : ∀ s ∈ rest, s ∉ done)
    (hdone : A.fields ≠ [] → ∀ d ∈ done, (G d).rollback A.res A.fields.length = G₀ d)
    (hother : ∀ s, s ∉ done → G s = G₀ s) (h : (A.scalarReplacementLoop rest done G).1 = false) :
    (A.scalarReplacementLoop rest done G).2 = G₀ := by
  induction rest generalizing done G with
  | nil => cases h
  | cons s rest ih =>
    obtain ⟨hs, hrest⟩ := List.nodup_cons.1 hrest
    have hsdone := hdisjoint s List.mem_cons_self
    have hGs := hother s hsdone
    obtain ⟨added, hinputs, hout⟩ := addFields_spec (A := A) s A.fields 0 (G s)
    rw [scalarReplacementLoop] at h ⊢
    split at h
    · next sfpt heq =>
      rw [heq] at hinputs hout
      obtain ⟨-, hlen⟩ | ⟨hsome, -⟩ := hout
      · dsimp only at hinputs
        subst hinputs
        refine ih (fun s hs => hwell s (List.mem_cons_of_mem _ hs)) hrest ?_ ?_ ?_ ?_ h
        · rw [if_neg hsdone]
          exact List.nodup_cons.2 ⟨hsdone, hnodup⟩
        · intro t ht
          rw [if_neg hsdone]
          intro hmem
          obtain rfl | hmem := List.mem_cons.1 hmem
          · exact hs ht
          · exact hdisjoint t (List.mem_cons_of_mem s ht) hmem
        · intro hne d hd
          rw [if_neg hsdone] at hd
          obtain rfl | hd := List.mem_cons.1 hd
          · rw [Function.update_self, hGs]
            exact rollback_adjustJvms (hwell d List.mem_cons_self) hlen hne
          · have hds : d ≠ s := fun heq => hsdone (heq ▸ hd)
            rw [Function.update_of_ne hds]
            exact hdone hne d hd
        · intro t ht
          rw [if_neg hsdone, List.mem_cons, not_or] at ht
          rw [Function.update_of_ne ht.1]
          exact hother t ht.2
      · cases hsome
    · next sfpt j heq =>
      rw [heq] at hinputs hout
      obtain ⟨hnone, -⟩ | ⟨hsome, hne⟩ := hout
      · cases hnone
      · dsimp only at hinputs
        obtain rfl : j = added.length := (Option.some.inj hsome).trans (Nat.zero_add _)
        subst hinputs
        have hback :
            SafePoint.delLast { G s with inputs := (G s).inputs ++ added } added.length = G s := by
          rw [SafePoint.delLast, delLastInputs_append _ rfl]
        rw [hback, Function.update_eq_self]
        exact foldl_rollback hnodup (hdone hne) hother

/-- If `scalar_replacement` gives up, all safepoints are as they were: their inputs, and where their
debug info ends. `can_eliminate_allocation` lists each safepoint once. -/
theorem scalarReplacement_rollback (A : ReplacedAlloc) {safepoints : List ℕ} {G : ℕ → SafePoint}
    (hnodup : safepoints.Nodup) (hwell : ∀ s ∈ safepoints, (G s).WellFormed)
    (h : (A.scalarReplacement safepoints G).1 = false) :
    (A.scalarReplacement safepoints G).2 = G := by
  refine scalarReplacementLoop_rollback (fun s hs => hwell s (List.mem_reverse.1 hs))
    (List.nodup_reverse.2 hnodup) .nil (fun _ _ => List.not_mem_nil) ?_ (fun _ _ => rfl) h
  exact fun _ d hd => absurd hd List.not_mem_nil

/-- An object with two fields. -/
def twoFields : ReplacedAlloc where
  alloc := 5
  res := 7
  fields := [16, 24]
  useCompressedOops := false
  isReference := fun _ => true
  valueFromMem := fun s offset => if s = 1 ∧ offset = 24 then none else some 9
  decode := id

/-- Two safepoints with the object in a local and in a field of another one. -/
def twoSafepoints (s : ℕ) : SafePoint :=
  if s = 1 then ⟨[.node 0, .node 3, .node 7], 2, 3, 3⟩
  else ⟨[.node 0, .node 3, .node 7, .scalarObject ⟨4, 0, 1, false⟩, .node 7], 2, 4, 5⟩

/-- The second field is found at one of them only. -/
theorem rollback_twoSafepoints :
    (twoFields.scalarReplacement [1, 2] twoSafepoints).1 = false ∧
      (twoFields.scalarReplacement [1, 2] twoSafepoints).2 = twoSafepoints := by
  have hfalse : (twoFields.scalarReplacement [1, 2] twoSafepoints).1 = false := by decide
  refine ⟨hfalse, scalarReplacement_rollback twoFields (by decide) (fun s hs => ?_) hfalse⟩
  obtain rfl | hs := List.mem_cons.1 hs
  · refine ⟨rfl, Nat.le_refl 3, fun o ho => ?_⟩
    simp [twoSafepoints] at ho
  · obtain rfl := List.mem_singleton.1 hs
    refine ⟨rfl, by decide, fun o ho => ?_⟩
    simp [twoSafepoints] at ho
    subst ho
    decide

end ReplacedAlloc

end StackAllocation
