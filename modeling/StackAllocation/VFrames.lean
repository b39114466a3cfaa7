import StackAllocation.ObjectCopies
import StackAllocation.SafepointScopes

/-!
# What a deoptimized frame hands to the interpreter

Once the described objects have their copies, the values of a compiled frame are read
in four places: `compiledVFrame::locals`, `expressions` and `monitors` give the
interpreter its values, `Deoptimization::get_scope_value` fills in the copies. The
first two and the last look for addresses in the frame and put the copy in their
place, each with code of its own. `monitors` does not: it takes the owner of a monitor
as it is. So all four agree exactly where no monitor is owned by a register or stack
slot with an address in the frame (`readersAgree_iff`).

Values that a debugger has stored for a frame (`thread()->deferred_locals()`) are put over
what is read here, in `DeferredLocals`.
-/

namespace StackAllocation

variable {Jobject : Type}

/-! ## The readers of `compiledVFrame`

There are two functions that turn a scope value into a value, one for virtual frames and one for
deoptimization. The first stores what it has found back in the list. -/

namespace CompiledVFrame

variable (fr : DeoptFrame Jobject) (objects : List (FrameObject Jobject)) (values : ℕ → Word)

/-- The loop of `compiledVFrame::match_object_to_stack_oop`, from the `j`-th description on. -/
def matchObjectToStackOop (oopPtr : Word) : ℕ → List (FrameObject Jobject) → Option ℕ
  | _, [] => none
  | j, o :: rest =>
    match o.kind, o.location with
    | .stackObject, some loc =>
      if loc.offset = (oopPtr - fr.spBase).toInt64.toInt32 then some j
      else matchObjectToStackOop oopPtr (j + 1) rest
    | _, _ => matchObjectToStackOop oopPtr (j + 1) rest

/-- `compiledVFrame::get_scope_value`, which also stores what it has found in the list. -/
def getScopeValue (scvList : List (FrameValue Jobject)) (index : ℕ) :
    Option (FrameValue Jobject × List (FrameValue Jobject)) := do
  let sv ← scvList[index]?
  match sv with
  | .location loc =>
    if 0 < objects.length ∧ loc.type = .oop ∧ fr.inFrame (fr.oopAt loc) = true then
      match matchObjectToStackOop fr (fr.oopAt loc) 0 objects with
      | some j => return (.object j, scvList.set index (.object j))
      | none => return (sv, scvList)
    else return (sv, scvList)
  | .object j =>
    if fr.inFrame (values j) = true then
      match matchObjectToStackOop fr (values j) 0 objects with
      | some k => return (.object k, scvList)
      | none => return (sv, scvList)
    else return (sv, scvList)
  | _ => return (sv, scvList)

/-- The loop of `locals` and `expressions`, for the `n` values from the `i`-th on. -/
def stackValues : ℕ → ℕ → List (FrameValue Jobject) → Option (List StackValue)
  | 0, _, _ => some []
  | n + 1, i, scvList => do
    let (sv, scvList) ← getScopeValue fr objects values scvList i
    let rest ← stackValues n (i + 1) scvList
    return fr.createStackValue sv values :: rest

end CompiledVFrame

/-- A `MonitorInfo`. -/
structure MonitorInfo : Type where
  /-- the locked object, or the mirror of its class if it is scalar replaced -/
  owner : Word
  /-- the address of the `BasicLock` -/
  lock : Word
  eliminated : Bool
  ownerIsScalarReplaced : Bool
  deriving DecidableEq, Repr

/-- A scope of a compiled frame that is deoptimized, when the described objects have their
copies. A copy is `NULL` if it could not be allocated. -/
structure DeoptScope (E : OopEncoding) (Jobject : Type) : Type where
  /-- the frame -/
  frame : DeoptFrame (Option Jobject)
  /-- what the debug information says -/
  scope : DescribedScope Jobject
  /-- the copies -/
  values : ℕ → Word
  /-- descriptions have a class -/
  klass : ∀ o ∈ scope.objects, ∃ mirror, o.klass = some (.constantOopRead mirror)
  /-- two stack objects are not in one place -/
  places : PlacesDistinct scope.objects
  /-- copies are in the heap -/
  values_notInFrame : ∀ j, frame.inFrame (values j) = false
  /-- a value is a reference to a described object or into the heap, or it is primitive -/
  described : ∀ sv ∈ scope.locals ++ scope.expressions,
    (∃ r, SlotRefers E frame scope.objects sv r) ∨
      ∃ v, ∀ values, frame.createStackValue sv values = .int v
  /-- an owner is a reference -/
  owners : ∀ mv ∈ scope.monitors, ∃ r, SlotRefers E frame scope.objects mv.owner r

namespace DeoptScope

variable {E : OopEncoding} (F : DeoptScope E Jobject)

/-- `compiledVFrame::locals`. -/
def locals : Option (List StackValue) :=
  CompiledVFrame.stackValues F.frame F.scope.objects F.values F.scope.locals.length 0 F.scope.locals

/-- `compiledVFrame::expressions`. -/
def expressions : Option (List StackValue) :=
  CompiledVFrame.stackValues F.frame F.scope.objects F.values F.scope.expressions.length 0
    F.scope.expressions

/-- The body of the loop of `compiledVFrame::monitors`. -/
def monitorInfo (mv : MonitorValue Jobject) : Option MonitorInfo := do
  let owner ← (F.frame.createStackValue mv.owner F.values).getObj
  let lock := F.frame.valueAddr mv.basicLock.offset
  match mv.owner with
  | .object j =>
    if owner = 0 then
      -- the owner could not be allocated
      match (F.scope.objects[j]?).bind ObjectValue.klass with
      | some (.constantOopRead mirror) => return ⟨mirror, lock, mv.eliminated, true⟩
      | _ => none
    else return ⟨owner, lock, mv.eliminated, false⟩
  | _ => return ⟨owner, lock, mv.eliminated, false⟩

/-- `compiledVFrame::monitors`. -/
def monitors : Option (List MonitorInfo) := F.scope.monitors.mapM F.monitorInfo

end DeoptScope

/-- `Deoptimization::relock_objects`: the objects that are locked, with their `BasicLock`s. -/
def relockObjects (infos : List MonitorInfo) : List (Word × Word) :=
  infos.filterMap fun info =>
    if info.eliminated = true ∧ info.ownerIsScalarReplaced = false then
      some (info.owner, info.lock)
    else none

/-! ## The searches agree

Both look for the description whose place is the given address. The places are distinct, so there is
one at most. -/

namespace CompiledVFrame

variable {fr : DeoptFrame Jobject} {objects : List (FrameObject Jobject)} {values : ℕ → Word}

/-- The search of the virtual frames finds the object that deoptimization finds. -/
theorem matchObjectToStackOop_eq (oopPtr : Word) (objects : List (FrameObject Jobject)) (j : ℕ) :
    matchObjectToStackOop fr oopPtr j objects =
      (StackAllocation.matchObjectToStackOop fr objects oopPtr).map (· + j) := by
  unfold StackAllocation.matchObjectToStackOop
  induction objects generalizing j with
  | nil => rfl
  | cons o rest ih =>
    rw [matchObjectToStackOop.eq_def, List.findIdx?_cons]
    simp only [ih]
    have hnext : (fun i => i + (j + 1)) = ((· + j) ∘ (· + 1) : ℕ → ℕ) := by
      funext i
      exact (Nat.add_right_comm i 1 j).symm
    rw [hnext]
    generalize (oopPtr - fr.spBase).toInt64.toInt32 = offset
    cases hkind : o.kind with
    | stackObject =>
      cases hloc : o.location with
      | none => simp
      | some loc =>
        by_cases hoffset : loc.offset = offset
        · simp [hoffset]
        · simp [hoffset]
    | object => simp
    | autoBox => simp

/-- `compiledVFrame::get_scope_value` finds what `Deoptimization::get_scope_value` finds. -/
theorem getScopeValue_eq {scvList : List (FrameValue Jobject)} {i : ℕ} {sv : FrameValue Jobject}
    (hsv : scvList[i]? = some sv) : ∃ scvList', getScopeValue fr objects values scvList i =
      some (StackAllocation.getScopeValue fr objects values sv, scvList') ∧
        scvList'.drop (i + 1) = scvList.drop (i + 1) ∧ scvList'.length = scvList.length := by
  have hmatch : ∀ w, matchObjectToStackOop fr w 0 objects =
      StackAllocation.matchObjectToStackOop fr objects w := by
    intro w
    rw [matchObjectToStackOop_eq]
    simp
  simp only [getScopeValue, hsv, hmatch, Option.bind_eq_bind, Option.bind_some]
  cases sv with
  | location loc =>
    simp only [StackAllocation.getScopeValue]
    by_cases hlen : objects.length = 0
    · rw [if_pos hlen, if_neg fun h => absurd hlen (by omega)]
      exact ⟨scvList, rfl, rfl, rfl⟩
    by_cases htype : loc.type = .oop
    · by_cases hin : fr.inFrame (fr.oopAt loc) = true
      · rw [if_neg hlen, if_pos htype, if_pos hin, if_pos ⟨by omega, htype, hin⟩]
        cases StackAllocation.matchObjectToStackOop fr objects (fr.oopAt loc) with
        | some j => exact ⟨_, rfl, List.drop_set_of_lt (Nat.lt_succ_self i), List.length_set⟩
        | none => exact ⟨scvList, rfl, rfl, rfl⟩
      · rw [if_neg hlen, if_pos htype, if_neg hin, if_neg fun h => hin h.2.2]
        exact ⟨scvList, rfl, rfl, rfl⟩
    · rw [if_neg hlen, if_neg htype, if_neg fun h => htype h.2.1]
      exact ⟨scvList, rfl, rfl, rfl⟩
  | object j =>
    simp only [StackAllocation.getScopeValue]
    split
    · cases StackAllocation.matchObjectToStackOop fr objects (values j) with
      | some k => exact ⟨scvList, rfl, rfl, rfl⟩
      | none => exact ⟨scvList, rfl, rfl, rfl⟩
    · exact ⟨scvList, rfl, rfl, rfl⟩
  | _ => exact ⟨scvList, rfl, rfl, rfl⟩

/-- `locals` and `expressions` read each value once, as it was described. -/
theorem stackValues_eq (n i : ℕ) (scvList : List (FrameValue Jobject))
    (hlen : i + n = scvList.length) : stackValues fr objects values n i scvList =
      some ((scvList.drop i).map fun sv =>
        fr.createStackValue (StackAllocation.getScopeValue fr objects values sv) values) := by
  induction n generalizing i scvList with
  | zero => rw [stackValues, List.drop_eq_nil_of_le (by omega), List.map_nil]
  | succ n ih =>
    have hi : i < scvList.length := by omega
    obtain ⟨scvList', hget, hdrop, hlen'⟩ := @getScopeValue_eq _ fr objects values scvList i _
      (List.getElem?_eq_getElem hi)
    rw [stackValues, hget, List.drop_eq_getElem_cons hi, List.map_cons, ← hdrop]
    simp only [Option.bind_eq_bind, Option.bind_some, ih (i + 1) scvList' (by omega)]
    rfl

end CompiledVFrame

/-! ## When the readers agree

Locals and expressions go through the search. The owner of a monitor does not, so it is right only
if it is not an address in the frame. -/

/-- A list is read if each element of it is. -/
theorem mapM_eq_some_iff {α β : Type} {f : α → Option β} {l : List α} {bs : List β} :
    l.mapM f = some bs ↔ List.Forall₂ (fun a b => f a = some b) l bs := by
  induction l generalizing bs with
  | nil => simp [eq_comm]
  | cons a l ih =>
    simp only [List.mapM_cons, Option.pure_def, Option.bind_eq_bind, Option.bind_eq_some_iff,
      Option.some.injEq, List.forall₂_cons_left_iff, ih]
    constructor
    · rintro ⟨b, hb, bs', hbs, rfl⟩
      exact ⟨b, bs', hb, hbs, rfl⟩
    · rintro ⟨b, bs', hb, hbs, rfl⟩
      exact ⟨b, hb, bs', hbs, rfl⟩

/-- What exists for each element exists for the list. -/
theorem exists_forall₂ {α β : Type} {R : α → β → Prop} {l : List α} (h : ∀ a ∈ l, ∃ b, R a b) :
    ∃ bs, List.Forall₂ R l bs := by
  induction l with
  | nil => exact ⟨[], .nil⟩
  | cons a l ih =>
    obtain ⟨b, hb⟩ := h a List.mem_cons_self
    obtain ⟨bs, hbs⟩ := ih fun a' ha' => h a' (List.mem_cons_of_mem _ ha')
    exact ⟨b :: bs, .cons hb hbs⟩

namespace DeoptScope

variable {E : OopEncoding} (F : DeoptScope E Jobject)

/-- What a scope value refers to. -/
abbrev RefersTo (sv : WrittenValue Jobject) (r : Ref) : Prop :=
  SlotRefers E F.frame F.scope.objects sv r

/-- The word is no address in the frame. -/
abbrev OutsideFrame (w : Word) : Prop := F.frame.inFrame w = false

/-- References are read as the copies of what they refer to, and no address in the frame is
read. -/
structure ValuesAgree (svs : List (WrittenValue Jobject)) (vs : List StackValue) : Prop where
  copies : ∀ (i : ℕ) sv r, svs[i]? = some sv → F.RefersTo sv r →
    vs[i]? = some (.obj (r.target F.values))
  outside : ∀ w, StackValue.obj w ∈ vs → F.OutsideFrame w

/-- The owner of a monitor is the copy of what it refers to, unless that could not be
allocated. -/
structure OwnerAgrees (mv : MonitorValue Jobject) (info : MonitorInfo) : Prop where
  copy : ∀ r, F.RefersTo mv.owner r → info.ownerIsScalarReplaced = false →
    info.owner = r.target F.values
  failed : ∀ r, F.RefersTo mv.owner r → info.ownerIsScalarReplaced = true → r.target F.values = 0
  outside : info.ownerIsScalarReplaced = false → F.OutsideFrame info.owner

/-- All readers find the copies, and none of them gives the interpreter an address in the
frame, or locks an object there. -/
structure ReadersAgree : Prop where
  getScopeValue : ∀ sv r, F.RefersTo sv r →
    F.frame.createStackValue
        (StackAllocation.getScopeValue F.frame F.scope.objects F.values sv) F.values =
      .obj (r.target F.values) ∧ F.OutsideFrame (r.target F.values)
  locals : ∃ vs, F.locals = some vs ∧ F.ValuesAgree F.scope.locals vs
  expressions : ∃ vs, F.expressions = some vs ∧ F.ValuesAgree F.scope.expressions vs
  monitors : ∃ infos, F.monitors = some infos ∧
    List.Forall₂ F.OwnerAgrees F.scope.monitors infos ∧
    ∀ locked ∈ relockObjects infos, F.OutsideFrame locked.1

/-- The monitor is owned by a register or stack slot with an address in the frame. -/
def OwnerInFrame (mv : MonitorValue Jobject) : Prop :=
  ∃ loc, mv.owner = .location loc ∧ loc.type = .oop ∧ F.frame.inFrame (F.frame.oopAt loc) = true

variable {F}

/-- What a described value is replaced by is no address of the frame. -/
theorem target_outsideFrame {sv : WrittenValue Jobject} {r : Ref} (h : F.RefersTo sv r) :
    F.OutsideFrame (r.target F.values) := by
  cases h with
  | object _ => exact F.values_notInFrame _
  | @oop loc _ _ href =>
    generalize F.frame.oopAt loc = w at href
    cases href with
    | other hin _ => exact hin
    | described _ _ _ _ => exact F.values_notInFrame _
  | other _ _ _ hin _ => exact hin

/-- `get_scope_value` finds the copy. -/
theorem createStackValue_eq {sv : WrittenValue Jobject} {r : Ref} (h : F.RefersTo sv r) :
    F.frame.createStackValue
        (StackAllocation.getScopeValue F.frame F.scope.objects F.values sv) F.values =
      .obj (r.target F.values) :=
  createStackValue_getScopeValue F.places F.values_notInFrame h

/-- The values `locals` and `expressions` read. -/
theorem valuesAgree {svs : List (WrittenValue Jobject)}
    (hsvs : ∀ sv ∈ svs, sv ∈ F.scope.locals ++ F.scope.expressions) :
    ∃ vs, CompiledVFrame.stackValues F.frame F.scope.objects F.values svs.length 0 svs = some vs ∧
      F.ValuesAgree svs vs := by
  refine ⟨_, CompiledVFrame.stackValues_eq svs.length 0 svs (Nat.zero_add _), ?_, ?_⟩
  · intro i sv r hsv href
    rw [List.drop_zero, List.getElem?_map, hsv, Option.map_some, createStackValue_eq href]
  · intro w hw
    obtain ⟨sv, hsv, heq⟩ := List.mem_map.1 hw
    rcases F.described sv (hsvs sv hsv) with ⟨r, href⟩ | ⟨v, hv⟩
    · rw [createStackValue_eq href] at heq
      obtain rfl := StackValue.obj.inj heq
      exact target_outsideFrame href
    · rw [getScopeValue_eq_self hv, hv] at heq
      cases heq

/-- What `monitors` makes of an owner that is no description. -/
theorem monitorInfo_of_ne_object {mv : MonitorValue Jobject} (hno : ∀ j, mv.owner ≠ .object j)
    {w : Word} (hw : F.frame.createStackValue mv.owner F.values = .obj w) :
    F.monitorInfo mv =
      some ⟨w, F.frame.valueAddr mv.basicLock.offset, mv.eliminated, false⟩ := by
  rw [monitorInfo, hw]
  cases howner : mv.owner with
  | object j => exact absurd howner (hno j)
  | _ => rfl

/-- `monitors` finds the copy of an owner that is not in the frame. -/
theorem ownerAgrees {mv : MonitorValue Jobject} (hmv : mv ∈ F.scope.monitors)
    (hout : ¬ F.OwnerInFrame mv) :
    ∃ info, F.monitorInfo mv = some info ∧ F.OwnerAgrees mv info := by
  obtain ⟨r, href⟩ := F.owners mv hmv
  have hout' := target_outsideFrame href
  -- an owner refers to one thing only
  have hcopy : ∀ r', F.RefersTo mv.owner r' → r'.target F.values = r.target F.values := by
    intro r' href'
    have heq := (createStackValue_eq href').symm.trans (createStackValue_eq href)
    exact StackValue.obj.inj heq
  have hheld : ∀ w, (∀ j, mv.owner ≠ .object j) →
      F.frame.createStackValue mv.owner F.values = .obj w → w = r.target F.values →
        ∃ info, F.monitorInfo mv = some info ∧ F.OwnerAgrees mv info := by
    rintro w hno hw rfl
    exact ⟨_, monitorInfo_of_ne_object hno hw, fun r' href' _ => (hcopy r' href').symm,
      fun _ _ h => Bool.noConfusion h, fun _ => hout'⟩
  generalize howner : mv.owner = owner at href
  cases href with
  | @object j hj =>
    have hcreate := F.frame.create_object j F.values
    rw [monitorInfo, howner, hcreate]
    by_cases hnull : F.values j = 0
    · obtain ⟨mirror, hmirror⟩ := F.klass _ (List.getElem_mem hj)
      refine ⟨⟨mirror, F.frame.valueAddr mv.basicLock.offset, mv.eliminated, true⟩, ?_,
        fun _ _ h => Bool.noConfusion h, fun r' href' _ => (hcopy r' href').trans hnull,
        fun h => Bool.noConfusion h⟩
      simp [StackValue.getObj, hnull, List.getElem?_eq_getElem hj, hmirror]
    · refine ⟨⟨F.values j, F.frame.valueAddr mv.basicLock.offset, mv.eliminated, false⟩, ?_,
        fun r' href' _ => (hcopy r' href').symm, fun _ _ h => Bool.noConfusion h, fun _ => hout'⟩
      simp [StackValue.getObj, hnull]
  | @oop loc _ htype href =>
    refine hheld (F.frame.oopAt loc) (fun j hj => ?_) ?_ ?_
    · rw [howner] at hj
      cases hj
    · rw [howner, F.frame.create_oop loc F.values htype]
    · have hin : F.frame.inFrame (F.frame.oopAt loc) ≠ true := fun h => hout ⟨loc, howner, htype, h⟩
      generalize F.frame.oopAt loc = w at href hin
      cases href with
      | other _ _ => rfl
      | described _ _ _ h => exact absurd h hin
  | @other _ w hobj _ hcreate _ _ =>
    exact hheld w (fun j hj => hobj j (howner ▸ hj)) (howner ▸ hcreate F.values) rfl

/-- The readers agree exactly if no monitor is owned by an address in the frame. -/
theorem readersAgree_iff (F : DeoptScope E Jobject) :
    F.ReadersAgree ↔ ∀ mv ∈ F.scope.monitors, ¬ F.OwnerInFrame mv := by
  constructor
  · rintro h mv hmv ⟨loc, howner, htype, hin⟩
    obtain ⟨infos, hinfos, hagree, -⟩ := h.monitors
    have hcreate := F.frame.create_oop loc F.values htype
    rw [← howner] at hcreate
    have hinfo := monitorInfo_of_ne_object (fun j hj => by rw [howner] at hj; cases hj) hcreate
    obtain ⟨i, hi, rfl⟩ := List.getElem_of_mem hmv
    have hi' : i < infos.length := hagree.length_eq ▸ hi
    have heq : F.monitorInfo F.scope.monitors[i] = some infos[i] :=
      (mapM_eq_some_iff.1 hinfos).get hi hi'
    have hown : F.OwnerAgrees F.scope.monitors[i] infos[i] := hagree.get hi hi'
    rw [hinfo] at heq
    rw [← Option.some.inj heq] at hown
    have hno : F.frame.inFrame (F.frame.oopAt loc) = false := hown.outside rfl
    rw [hin] at hno
    cases hno
  · intro hout
    constructor
    case getScopeValue => exact fun sv r h => ⟨createStackValue_eq h, target_outsideFrame h⟩
    case locals => exact valuesAgree fun sv hsv => List.mem_append_left _ hsv
    case expressions => exact valuesAgree fun sv hsv => List.mem_append_right _ hsv
    case monitors =>
      obtain ⟨infos, hinfos⟩ := exists_forall₂ fun mv hmv => ownerAgrees hmv (hout mv hmv)
      refine ⟨infos, mapM_eq_some_iff.2 (hinfos.imp fun _ _ h => h.1), hinfos.imp fun _ _ h => h.2,
        ?_⟩
      intro locked hlocked
      obtain ⟨info, hinfo, heq⟩ := List.mem_filterMap.1 hlocked
      obtain ⟨i, hi, rfl⟩ := List.getElem_of_mem hinfo
      have hi' : i < F.scope.monitors.length := hinfos.length_eq.symm ▸ hi
      have hown : F.OwnerAgrees F.scope.monitors[i] infos[i] := (hinfos.get hi' hi).2
      split at heq
      · next h =>
        obtain rfl := Option.some.inj heq
        exact hown.outside h.2
      · cases heq

/-! ### A failing input

`synchronized (c ? a : b)` of two stack objects: the lock is eliminated, and the owner of the
monitor is in a stack slot, which holds the address of one of them. -/

/-- A frame from 100 to 200 whose slots of references hold the address 116. -/
def mergedFrame : DeoptFrame (Option ℕ) where
  spBase := 100
  spTop := 200
  oopAt _ := 116
  createStackValue sv values :=
    match sv with
    | .object j => .obj (values j)
    | .location loc => if loc.type = .oop then .obj 116 else .int 0
    | .constantInt n => .int n.toInt64.toUInt64
    | _ => .int 0
  create_object _ _ := rfl
  create_oop _ _ h := if_pos h
  create_other sv h _ _ := by
    cases sv with
    | object j => exact absurd rfl (h j)
    | _ => rfl

/-- The description of a stack object. -/
def mergedObject (id offset : JInt) : WrittenObject ℕ :=
  ⟨.stackObject, id, some (.constantOopRead 1), [], some ⟨true, .oop, offset⟩,
    some (.constantInt 1)⟩

/-- The slot that holds one of the two objects refers to it. -/
theorem slotRefers_merged : SlotRefers DescribedFrame.fullWord mergedFrame
    [mergedObject 1 16, mergedObject 2 48] (.location ⟨true, .oop, 8⟩) (.described 0) :=
  .oop rfl (@Refers.described (Option ℕ) DescribedFrame.fullWord mergedFrame _ 0 _ ⟨true, .oop, 16⟩
    rfl rfl rfl (by decide))

/-- The objects are at 116 and 148, and their copies at 1000 and 2000. -/
def mergedScope : DeoptScope DescribedFrame.fullWord ℕ where
  frame := mergedFrame
  scope := ⟨[mergedObject 1 16, mergedObject 2 48], [.location ⟨true, .oop, 8⟩], [],
    [⟨.location ⟨true, .oop, 8⟩, ⟨true, .normal, 80⟩, true⟩]⟩
  values j := if j = 0 then 1000 else 2000
  klass o ho := by
    simp only [List.mem_cons, List.not_mem_nil, or_false] at ho
    rcases ho with rfl | rfl <;> exact ⟨1, rfl⟩
  places i j sv sv' loc loc' hi hj _ _ hloc hloc' heq := by
    rcases i with _ | _ | i <;> rcases j with _ | _ | j <;> cases hi <;> cases hj <;> cases hloc <;>
      cases hloc' <;> first | rfl | exact absurd heq (by decide)
  values_notInFrame j := by split <;> rfl
  described sv hsv := by
    obtain rfl := List.mem_singleton.1 hsv
    exact .inl ⟨_, slotRefers_merged⟩
  owners mv hmv := by
    obtain rfl := List.mem_singleton.1 hmv
    exact ⟨_, slotRefers_merged⟩

/-- The monitor gets the address in the frame, and the object there is locked. -/
theorem not_readersAgree_mergedScope : ¬ mergedScope.ReadersAgree := by
  intro h
  obtain ⟨infos, hinfos, -, hlocked⟩ := h.monitors
  have heq : mergedScope.monitors = some [⟨116, 180, true, false⟩] := by decide
  rw [heq] at hinfos
  obtain rfl := Option.some.inj hinfos
  have hmem : ((116 : Word), (180 : Word)) ∈ relockObjects [⟨116, 180, true, false⟩] := by decide
  exact absurd (hlocked _ hmem) (by decide)

end DeoptScope

end StackAllocation
