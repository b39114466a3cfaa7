import StackAllocation.VFrames
import Mathlib.Data.List.Induction

/-!
# Values that a debugger stores into a compiled frame

A compiled frame has no places that a debugger could write to. `update_local`, `update_stack` and
`update_monitor` keep the values with the thread until the frame is deoptimized, in a list for each
frame with an entry for each slot, and `locals`, `expressions` and `monitors` put them over the
values of the frame when they are read. What is read is what would have been there if each store
had been made at once (`deferred_reads_replay`), for any number of stores to any frames of the
thread, in any order.

An entry stays where it is in the list when its value is stored again. So what is read is in the
order of the first stores to the slots, and two entries may not overlap: the second half of a long
is not stored to by itself.
-/

namespace StackAllocation

/-! ## Deferred values

A store by the debugger is kept as an entry of its slot with its type. Locals, expression stack and
monitors share one index, in which the expressions come after the locals and the monitors after
both. -/

/-- The types of the cases of `update_value`. -/
inductive DeferredType : Type where
  | boolean
  | char
  | float
  | double
  | byte
  | short
  | int
  | long
  | object
  deriving DecidableEq

/-- The members of a `jvalue`. -/
structure JValueUnion (J : Type) : Type where
  z : J → ℤ
  c : J → ℤ
  f : J → ℤ
  d : J → ℤ
  b : J → ℤ
  s : J → ℤ
  i : J → ℤ
  j : J → ℤ
  l : J → Word

/-- What `update_value` calls of a `StackValueCollection`. -/
structure StackValueCollection (C : Type) : Type where
  setIntAt : ℕ → ℤ → C → C
  setFloatAt : ℕ → ℤ → C → C
  setDoubleAt : ℕ → ℤ → C → C
  setLongAt : ℕ → ℤ → C → C
  setObjAt : ℕ → Word → C → C

/-- A `jvmtiDeferredLocalVariable`. -/
structure DeferredVariable (J : Type) : Type where
  index : ℕ
  type : DeferredType
  value : J

/-- What identifies a vframe: `fr().id()` and `vframe_id()`. -/
structure VFrameId : Type where
  id : ℕ
  vframeId : ℕ
  deriving DecidableEq

/-- A `jvmtiDeferredLocalVariableSet`, of the frame that it `matches`. -/
structure DeferredVariableSet (J : Type) : Type where
  frame : VFrameId
  locals : List (DeferredVariable J)

/-- The limits of a `Method`. -/
structure MethodLimits : Type where
  maxLocals : ℕ
  maxStack : ℕ

variable {J C : Type}

/-- `set_value_at`; the type of an entry stays. -/
def setValueAt (idx : ℕ) (type : DeferredType) (val : J) :
    List (DeferredVariable J) → List (DeferredVariable J)
  | [] => [⟨idx, type, val⟩]
  | v :: rest =>
    if v.index = idx then { v with value := val } :: rest
    else v :: setValueAt idx type val rest

/-- The sets of the frames, in `update_deferred_value`. -/
def updateSets (frame : VFrameId) (type : DeferredType) (index : ℕ) (value : J) :
    List (DeferredVariableSet J) → List (DeferredVariableSet J)
  | [] => [⟨frame, setValueAt index type value []⟩]
  | set :: rest =>
    if set.frame = frame then { set with locals := setValueAt index type value set.locals } :: rest
    else set :: updateSets frame type index value rest

/-- `update_deferred_value`, from `thread()->deferred_locals()`. -/
def updateDeferredValue (frame : VFrameId) (type : DeferredType) (index : ℕ) (value : J)
    (deferred : Option (List (DeferredVariableSet J))) : Option (List (DeferredVariableSet J)) :=
  some (updateSets frame type index value (deferred.getD []))

/-- What a debugger stores into a frame. -/
inductive FrameStore (J : Type) : Type where
  /-- `update_local` -/
  | local_ (type : DeferredType) (index : ℕ) (value : J)
  /-- `update_stack` -/
  | stack (type : DeferredType) (index : ℕ) (value : J)
  /-- `update_monitor` -/
  | monitor (index : ℕ) (owner : J)

/-- The entry of a store. -/
def FrameStore.entry (m : MethodLimits) : FrameStore J → DeferredVariable J
  | .local_ type index value => ⟨index, type, value⟩
  | .stack type index value => ⟨index + m.maxLocals, type, value⟩
  | .monitor index owner => ⟨index + m.maxLocals + m.maxStack, .object, owner⟩

/-- The thread after a store into a frame. -/
def storeInto (method : VFrameId → MethodLimits) (deferred : Option (List (DeferredVariableSet J)))
    (store : VFrameId × FrameStore J) : Option (List (DeferredVariableSet J)) :=
  let entry := store.2.entry (method store.1)
  updateDeferredValue store.1 entry.type entry.index entry.value deferred

section

variable (U : JValueUnion J) (S : StackValueCollection C) (m : MethodLimits)

/-- `update_value` -/
def updateValue (type : DeferredType) (index : ℕ) (value : J) (locals : C) : C :=
  match type with
  | .boolean => S.setIntAt index (U.z value) locals
  | .char => S.setIntAt index (U.c value) locals
  | .float => S.setFloatAt index (U.f value) locals
  | .double => S.setDoubleAt index (U.d value) locals
  | .byte => S.setIntAt index (U.b value) locals
  | .short => S.setIntAt index (U.s value) locals
  | .int => S.setIntAt index (U.i value) locals
  | .long => S.setLongAt index (U.j value) locals
  | .object => S.setObjAt index (U.l value) locals

/-- The body of the loop of `update_locals`. -/
def updateLocal (locals : C) (v : DeferredVariable J) : C :=
  if v.index < m.maxLocals then updateValue U S v.type v.index v.value locals else locals

/-- The body of the loop of `update_stack`. -/
def updateExpression (expressions : C) (v : DeferredVariable J) : C :=
  if m.maxLocals ≤ v.index ∧ v.index < m.maxLocals + m.maxStack then
    updateValue U S v.type (v.index - m.maxLocals) v.value expressions
  else expressions

/-- A monitor with another owner. -/
def setOwner (index : ℕ) (owner : J) (monitors : List MonitorInfo) : List MonitorInfo :=
  monitors.modify index fun info => { info with owner := U.l owner }

/-- The body of the loop of `update_monitors`. -/
def updateMonitor (monitors : List MonitorInfo) (v : DeferredVariable J) : List MonitorInfo :=
  if m.maxLocals + m.maxStack ≤ v.index then
    setOwner U (v.index - (m.maxLocals + m.maxStack)) v.value monitors
  else monitors

end

/-- The end of `locals`, `expressions` and `monitors`: the values `base` of a frame, when the set of
the frame is looked up and `update` is done for each of its entries. -/
def readDeferred {A : Type} (update : A → DeferredVariable J → A) (frame : VFrameId)
    (deferred : Option (List (DeferredVariableSet J))) (base : A) : A :=
  match deferred with
  | none => base
  | some list =>
    match list.find? fun set => set.frame = frame with
    | none => base
    | some set => set.locals.foldl update base

/-! ## Stores that are made at once

The same stores, made to the frame directly: each replaces the value of its slot. This is what the
deferred ones are compared with. -/

section

variable (U : JValueUnion J) (S : StackValueCollection C)

/-- A store to the local variables. -/
def FrameStore.toLocals (locals : C) : FrameStore J → C
  | .local_ type index value => updateValue U S type index value locals
  | _ => locals

/-- A store to the expression stack. -/
def FrameStore.toExpressions (expressions : C) : FrameStore J → C
  | .stack type index value => updateValue U S type index value expressions
  | _ => expressions

/-- A store to the monitors. -/
def FrameStore.toMonitors (monitors : List MonitorInfo) : FrameStore J → List MonitorInfo
  | .monitor index owner => setOwner U index owner monitors
  | _ => monitors

end

/-- The stores into a frame. -/
def storesInto (frame : VFrameId) (stores : List (VFrameId × FrameStore J)) :
    List (FrameStore J) :=
  (stores.filter fun store => store.1 = frame).map Prod.snd

/-- How many slots a value takes. -/
def DeferredType.slots : DeferredType → ℕ
  | .double | .long => 2
  | _ => 1

/-- What is documented of a `StackValueCollection`: a value takes its slots, and a store to other
slots does not touch it. -/
structure StackValueCollection.Lawful (U : JValueUnion J) (S : StackValueCollection C) :
    Prop where
  again : ∀ type i (v w : J) c,
    updateValue U S type i v (updateValue U S type i w c) = updateValue U S type i v c
  apart : ∀ type type' i j (v w : J) c, i + type.slots ≤ j ∨ j + type'.slots ≤ i →
    updateValue U S type i v (updateValue U S type' j w c) =
      updateValue U S type' j w (updateValue U S type i v c)

/-- Two stores to the same part of a frame go to the same slot with the same type, or do not
overlap. -/
def FrameStore.Fits : FrameStore J → FrameStore J → Prop
  | .local_ type i _, .local_ type' j _ | .stack type i _, .stack type' j _ =>
    i = j ∧ type = type' ∨ i + type.slots ≤ j ∨ j + type'.slots ≤ i
  | _, _ => True

/-- The index of a store is in bounds. -/
def FrameStore.InBounds (m : MethodLimits) : FrameStore J → Prop
  | .local_ _ index _ => index < m.maxLocals
  | .stack _ index _ => index < m.maxStack
  | .monitor _ _ => True

/-- What the source asserts of the stores into a frame, and that they do not overlap. -/
structure StoresFit (m : MethodLimits) (stores : List (FrameStore J)) : Prop where
  bounds : ∀ s ∈ stores, s.InBounds m
  fits : ∀ s ∈ stores, ∀ t ∈ stores, s.Fits t

/-! ## The entries of a frame

A store to a slot that has an entry changes the value in this entry and leaves it at its place. So
it has to be shown that to change an earlier entry is the same as to append a new one: what is
between them is of other slots, and commutes with it. -/

section

variable {A : Type} {update : A → DeferredVariable J → A}

/-- The entries after an entry has been stored. -/
def recordEntry (entries : List (DeferredVariable J)) (v : DeferredVariable J) :
    List (DeferredVariable J) := setValueAt v.index v.type v.value entries

/-- An entry replaces another one of its slot, and does not touch those of other slots. -/
def Settles (update : A → DeferredVariable J → A) (v w : DeferredVariable J) : Prop :=
  (v.index = w.index → v.type = w.type ∧ ∀ a, update (update a w) v = update a v) ∧
    (v.index ≠ w.index → ∀ a, update (update a w) v = update (update a v) w)

theorem recordEntry_cons (u v : DeferredVariable J) (rest : List (DeferredVariable J)) :
    recordEntry (u :: rest) v =
      if u.index = v.index then { u with value := v.value } :: rest
      else u :: recordEntry rest v := rfl

/-- An entry after a store was recorded is that of the store or one that was there. The type of an
entry never changes: stores to one slot have the same type. -/
theorem mem_recordEntry {entries : List (DeferredVariable J)} {v w : DeferredVariable J}
    (h : ∀ u ∈ entries, v.index = u.index → v.type = u.type) (hw : w ∈ recordEntry entries v) :
    w = v ∨ w ∈ entries := by
  induction entries with
  | nil => exact .inl (List.mem_singleton.1 hw)
  | cons u rest ih =>
    rw [recordEntry_cons] at hw
    split at hw
    · next hindex =>
      obtain rfl | hw := List.mem_cons.1 hw
      · left
        rw [← h u List.mem_cons_self hindex.symm, hindex]
      · exact .inr (List.mem_cons_of_mem _ hw)
    · obtain rfl | hw := List.mem_cons.1 hw
      · exact .inr List.mem_cons_self
      · exact (ih (fun u hu => h u (List.mem_cons_of_mem _ hu)) hw).imp id
          (List.mem_cons_of_mem _)

/-- A store adds no index but its own. -/
theorem index_recordEntry {entries : List (DeferredVariable J)} {v : DeferredVariable J} {k : ℕ}
    (hk : k ∈ (recordEntry entries v).map DeferredVariable.index) :
    k = v.index ∨ k ∈ entries.map DeferredVariable.index := by
  induction entries with
  | nil => exact .inl (List.mem_singleton.1 hk)
  | cons u rest ih =>
    rw [recordEntry_cons] at hk
    split at hk
    · exact .inr hk
    · obtain rfl | hk := List.mem_cons.1 hk
      · exact .inr List.mem_cons_self
      · exact (ih hk).imp id (List.mem_cons_of_mem _)

/-- There is one entry for each slot. -/
theorem nodup_recordEntry {entries : List (DeferredVariable J)} (v : DeferredVariable J)
    (h : (entries.map DeferredVariable.index).Nodup) :
    ((recordEntry entries v).map DeferredVariable.index).Nodup := by
  induction entries with
  | nil => exact List.nodup_singleton _
  | cons u rest ih =>
    rw [List.map_cons, List.nodup_cons] at h
    rw [recordEntry_cons]
    split
    · rw [List.map_cons, List.nodup_cons]
      exact h
    · next hindex =>
      rw [List.map_cons, List.nodup_cons]
      refine ⟨fun hmem => ?_, ih h.2⟩
      obtain heq | hmem := index_recordEntry hmem
      · exact hindex heq
      · exact h.1 hmem

/-- A value that is updated before the entries of a list are applied, or after it, if it commutes
with each of them. -/
theorem foldl_comm {entries : List (DeferredVariable J)} {v : DeferredVariable J}
    (h : ∀ w ∈ entries, ∀ a, update (update a w) v = update (update a v) w) (a : A) :
    update (entries.foldl update a) v = entries.foldl update (update a v) := by
  induction entries generalizing a with
  | nil => rfl
  | cons w rest ih =>
    rw [List.foldl_cons, List.foldl_cons, ih fun u hu => h u (List.mem_cons_of_mem _ hu),
      h w List.mem_cons_self]

/-- An entry that is stored is as if it were the last one. -/
theorem foldl_recordEntry {entries : List (DeferredVariable J)} {v : DeferredVariable J}
    (hnodup : (entries.map DeferredVariable.index).Nodup)
    (h : ∀ w ∈ entries, Settles update v w) (a : A) :
    (recordEntry entries v).foldl update a = update (entries.foldl update a) v := by
  induction entries generalizing a with
  | nil => rfl
  | cons w rest ih =>
    rw [List.map_cons, List.nodup_cons] at hnodup
    rw [recordEntry_cons]
    split
    · next hindex =>
      obtain ⟨htype, hagain⟩ := (h w List.mem_cons_self).1 hindex.symm
      have hself : ({ w with value := v.value } : DeferredVariable J) = v := by
        rw [← htype, hindex]
      have hcomm : ∀ u ∈ rest, ∀ a, update (update a u) v = update (update a v) u := by
        refine fun u hu => (h u (List.mem_cons_of_mem _ hu)).2 fun heq => hnodup.1 ?_
        rw [hindex, heq]
        exact List.mem_map_of_mem hu
      rw [hself, List.foldl_cons, List.foldl_cons, foldl_comm hcomm, hagain]
    · rw [List.foldl_cons, List.foldl_cons]
      exact ih hnodup.2 (fun u hu => h u (List.mem_cons_of_mem _ hu)) _

/-- The entries after some stores are as all of them one after the other. -/
theorem foldl_entries {vs : List (DeferredVariable J)}
    (h : ∀ v ∈ vs, ∀ w ∈ vs, Settles update v w) :
    ((vs.foldl recordEntry []).map DeferredVariable.index).Nodup ∧
      (∀ v ∈ vs.foldl recordEntry [], v ∈ vs) ∧
      ∀ a, (vs.foldl recordEntry []).foldl update a = vs.foldl update a := by
  induction vs using List.reverseRecOn with
  | nil => exact ⟨List.nodup_nil, fun v hv => hv, fun a => rfl⟩
  | append_singleton vs v ih =>
    obtain ⟨hnodup, hmem, hfold⟩ := ih fun u hu w hw =>
      h u (List.mem_append_left _ hu) w (List.mem_append_left _ hw)
    have hsettles : ∀ w ∈ vs.foldl recordEntry [], Settles update v w := fun w hw =>
      h v (List.mem_append_right _ (List.mem_singleton_self v)) w
        (List.mem_append_left _ (hmem w hw))
    rw [List.foldl_append, List.foldl_cons, List.foldl_nil]
    refine ⟨nodup_recordEntry v hnodup, fun w hw => ?_, fun a => ?_⟩
    · obtain rfl | hw := mem_recordEntry (fun u hu heq => ((hsettles u hu).1 heq).1) hw
      · exact List.mem_append_right _ (List.mem_singleton_self w)
      · exact List.mem_append_left _ (hmem w hw)
    · rw [foldl_recordEntry hnodup hsettles, hfold, List.foldl_append, List.foldl_cons,
        List.foldl_nil]

end

/-! ## The sets of the frames

The thread has one set for each frame with deferred values. A store goes to the set of its frame or
makes a new one behind all others, so the sets of other frames are as they were. -/

/-- The entries of a frame. -/
def entriesOf (frame : VFrameId) (deferred : Option (List (DeferredVariableSet J))) :
    List (DeferredVariable J) :=
  (((deferred.getD []).find? fun set => set.frame = frame).map DeferredVariableSet.locals).getD []

/-- To read a deferred part of a frame is to apply the entries of the frame to what it holds. A
frame for which nothing is deferred has no entries. -/
theorem readDeferred_eq {A : Type} (update : A → DeferredVariable J → A) (frame : VFrameId)
    (deferred : Option (List (DeferredVariableSet J))) (base : A) :
    readDeferred update frame deferred base = (entriesOf frame deferred).foldl update base := by
  unfold readDeferred entriesOf
  cases deferred with
  | none => rfl
  | some list =>
    simp only [Option.getD_some]
    cases list.find? fun set => set.frame = frame with
    | none => rfl
    | some set => rfl

/-- A store goes to the set of its frame, and leaves the others. -/
theorem find_updateSets (frame frame' : VFrameId) (v : DeferredVariable J)
    (list : List (DeferredVariableSet J)) :
    entriesOf frame (some (updateSets frame' v.type v.index v.value list)) =
      if frame' = frame then recordEntry (entriesOf frame (some list)) v
      else entriesOf frame (some list) := by
  unfold entriesOf recordEntry
  simp only [Option.getD_some]
  induction list with
  | nil =>
    rw [updateSets]
    by_cases hframe : frame' = frame
    · simp [hframe]
    · simp [hframe]
  | cons set rest ih =>
    rw [updateSets]
    by_cases hset : set.frame = frame'
    · rw [if_pos hset]
      by_cases hframe : frame' = frame
      · simp [hset, hframe]
      · simp [hset, hframe]
    · rw [if_neg hset]
      by_cases hframe : set.frame = frame
      · have hne : frame' ≠ frame := fun heq => hset (hframe.trans heq.symm)
        simp [hframe, hne]
      · simpa [hframe] using ih

/-- A store is recorded in the entries of its own frame. The entries of all other frames are as
before, whichever set they are found in. -/
theorem entriesOf_storeInto (method : VFrameId → MethodLimits) (frame : VFrameId)
    (deferred : Option (List (DeferredVariableSet J))) (store : VFrameId × FrameStore J) :
    entriesOf frame (storeInto method deferred store) =
      if store.1 = frame then
        recordEntry (entriesOf frame deferred) (store.2.entry (method store.1))
      else entriesOf frame deferred := by
  unfold storeInto updateDeferredValue
  simp only
  rw [find_updateSets]
  rfl

/-- The entries of a frame come from the stores into it. -/
theorem entriesOf_stores (method : VFrameId → MethodLimits) (frame : VFrameId)
    (stores : List (VFrameId × FrameStore J)) (deferred : Option (List (DeferredVariableSet J))) :
    entriesOf frame (stores.foldl (storeInto method) deferred) =
      ((storesInto frame stores).map (FrameStore.entry (method frame))).foldl recordEntry
        (entriesOf frame deferred) := by
  unfold storesInto
  induction stores generalizing deferred with
  | nil => rfl
  | cons store stores ih =>
    rw [List.foldl_cons, ih, entriesOf_storeInto]
    by_cases hframe : store.1 = frame
    · simp [hframe]
    · simp [hframe]

/-! ## What is read

The entries of a frame, applied one after the other, are its stores, made one after the other: each
entry writes the part of the frame that its index is of, and no other. Two stores to one slot have
one type, and stores to different slots commute, because none of them overlaps another. -/

/-- The stores go to the same slot of the same part. -/
def FrameStore.SameSlot : FrameStore J → FrameStore J → Prop
  | .local_ _ i _, .local_ _ j _ | .stack _ i _, .stack _ j _ | .monitor i _, .monitor j _ => i = j
  | _, _ => False

section

variable {m : MethodLimits} {s t : FrameStore J}

/-- The index that an entry is recorded under tells which slot it is of: locals, expressions and
monitors have ranges of their own. -/
theorem FrameStore.entry_index (hs : s.InBounds m) (ht : t.InBounds m)
    (h : (s.entry m).index = (t.entry m).index) : s.SameSlot t := by
  cases s <;> cases t <;> simp only [entry, InBounds, SameSlot] at * <;> omega

/-- Every value takes at least one slot. -/
theorem DeferredType.slots_pos (type : DeferredType) : 0 < type.slots := by
  cases type <;> decide

/-- Values of one slot that do not overlap have one type. -/
theorem DeferredType.eq_of_fits {type type' : DeferredType} {i j : ℕ}
    (hfits : i = j ∧ type = type' ∨ i + type.slots ≤ j ∨ j + type'.slots ≤ i) (h : i = j) :
    type = type' := by
  have hpos := type.slots_pos
  have hpos' := type'.slots_pos
  obtain ⟨-, htype⟩ | hfits := hfits
  · exact htype
  · omega

/-- Stores to one slot have the same type, which is what keeps an entry of a long from being taken
for one of an int. -/
theorem FrameStore.entry_type (hfits : s.Fits t) (h : s.SameSlot t) :
    (s.entry m).type = (t.entry m).type := by
  cases s with
  | local_ type i v =>
    cases t with
    | local_ type' j w => exact DeferredType.eq_of_fits hfits h
    | _ => exact h.elim
  | stack type i v =>
    cases t with
    | stack type' j w => exact DeferredType.eq_of_fits hfits h
    | _ => exact h.elim
  | monitor i v =>
    cases t with
    | monitor j w => rfl
    | _ => exact h.elim

/-- The entries of stores settle, if the stores themselves do. -/
theorem settles_entry {A : Type} {update : A → DeferredVariable J → A}
    {toPart : A → FrameStore J → A} (hs : s.InBounds m) (ht : t.InBounds m) (hfits : s.Fits t)
    (hupdate : ∀ r : FrameStore J, r.InBounds m → ∀ a, update a (r.entry m) = toPart a r)
    (hagain : s.SameSlot t → ∀ a, toPart (toPart a t) s = toPart a s)
    (hapart : ¬ s.SameSlot t → ∀ a, toPart (toPart a t) s = toPart (toPart a s) t) :
    Settles update (s.entry m) (t.entry m) := by
  refine ⟨fun hindex => ?_, fun hindex a => ?_⟩
  · have hsame := FrameStore.entry_index hs ht hindex
    refine ⟨FrameStore.entry_type hfits hsame, fun a => ?_⟩
    rw [hupdate t ht, hupdate s hs, hupdate s hs]
    exact hagain hsame a
  · rw [hupdate t ht, hupdate s hs, hupdate s hs, hupdate t ht]
    refine hapart (fun hsame => hindex ?_) a
    cases s <;> cases t <;> simp only [FrameStore.SameSlot] at hsame <;>
      simp only [FrameStore.entry, hsame]

/-- The entries of a list of stores, applied in turn, do what the stores do to a part of the
frame. -/
theorem foldl_toPart {A : Type} {update : A → DeferredVariable J → A}
    {toPart : A → FrameStore J → A} {stores : List (FrameStore J)}
    (hupdate : ∀ r : FrameStore J, r.InBounds m → ∀ a, update a (r.entry m) = toPart a r)
    (hbounds : ∀ s ∈ stores, s.InBounds m) (base : A) :
    stores.foldl (fun a r => update a (r.entry m)) base = stores.foldl toPart base := by
  induction stores generalizing base with
  | nil => rfl
  | cons s stores ih =>
    rw [List.foldl_cons, List.foldl_cons, hupdate s (hbounds s List.mem_cons_self)]
    exact ih (fun t ht => hbounds t (List.mem_cons_of_mem _ ht)) _

/-- What is read of a part of a frame is what the stores make of it. -/
theorem readDeferred_stores {A : Type} {update : A → DeferredVariable J → A}
    {toPart : A → FrameStore J → A} {method : VFrameId → MethodLimits} {frame : VFrameId}
    {stores : List (VFrameId × FrameStore J)}
    (hfit : StoresFit (method frame) (storesInto frame stores))
    (hupdate : ∀ r : FrameStore J, r.InBounds (method frame) →
      ∀ a, update a (r.entry (method frame)) = toPart a r)
    (hagain : ∀ s t : FrameStore J, s.Fits t → s.SameSlot t →
      ∀ a, toPart (toPart a t) s = toPart a s)
    (hapart : ∀ s t : FrameStore J, s.Fits t → ¬ s.SameSlot t →
      ∀ a, toPart (toPart a t) s = toPart (toPart a s) t) (base : A) :
    readDeferred update frame (stores.foldl (storeInto method) none) base =
      (storesInto frame stores).foldl toPart base := by
  rw [readDeferred_eq, entriesOf_stores]
  change (List.foldl recordEntry [] _).foldl update base = _
  have hsettles : ∀ v ∈ (storesInto frame stores).map (FrameStore.entry (method frame)),
      ∀ w ∈ (storesInto frame stores).map (FrameStore.entry (method frame)),
        Settles update v w := by
    intro v hv w hw
    obtain ⟨s, hs, rfl⟩ := List.mem_map.1 hv
    obtain ⟨t, ht, rfl⟩ := List.mem_map.1 hw
    have hfits := hfit.fits s hs t ht
    exact settles_entry (hfit.bounds s hs) (hfit.bounds t ht) hfits hupdate
      (hagain s t hfits) (hapart s t hfits)
  change (List.foldl recordEntry [] _).foldl update base = _
  rw [(foldl_entries hsettles).2.2 base, List.foldl_map]
  exact foldl_toPart hupdate hfit.bounds base

end

section

variable {U : JValueUnion J} {S : StackValueCollection C} {m : MethodLimits} {s t : FrameStore J}

/-- The entry of a store to a local writes this local, and that of any other store no local. -/
theorem updateLocal_entry (h : s.InBounds m) (c : C) :
    updateLocal U S m c (s.entry m) = s.toLocals U S c := by
  unfold updateLocal
  cases s with
  | local_ type index value => exact if_pos h
  | stack type index value => exact if_neg (by simp [FrameStore.entry])
  | monitor index owner =>
    refine if_neg ?_
    simp only [FrameStore.entry]
    omega

/-- The same for an expression stack slot. -/
theorem updateExpression_entry (h : s.InBounds m) (c : C) :
    updateExpression U S m c (s.entry m) = s.toExpressions U S c := by
  unfold updateExpression
  cases s with
  | local_ type index value =>
    simp only [FrameStore.InBounds] at h
    refine if_neg ?_
    simp only [FrameStore.entry]
    omega
  | stack type index value =>
    simp only [FrameStore.InBounds] at h
    have hbounds : m.maxLocals ≤ index + m.maxLocals ∧
        index + m.maxLocals < m.maxLocals + m.maxStack := by omega
    simp only [FrameStore.entry, if_pos hbounds, Nat.add_sub_cancel]
    rfl
  | monitor index owner =>
    refine if_neg ?_
    simp only [FrameStore.entry]
    omega

/-- The same for the owner of a monitor. -/
theorem updateMonitor_entry (h : s.InBounds m) (monitors : List MonitorInfo) :
    updateMonitor U m monitors (s.entry m) = s.toMonitors U monitors := by
  unfold updateMonitor
  cases s with
  | local_ type index value =>
    simp only [FrameStore.InBounds] at h
    refine if_neg ?_
    simp only [FrameStore.entry]
    omega
  | stack type index value =>
    simp only [FrameStore.InBounds] at h
    refine if_neg ?_
    simp only [FrameStore.entry]
    omega
  | monitor index owner =>
    have hbounds : m.maxLocals + m.maxStack ≤ index + m.maxLocals + m.maxStack := by omega
    have hindex : index + m.maxLocals + m.maxStack - (m.maxLocals + m.maxStack) = index := by omega
    simp only [FrameStore.entry, if_pos hbounds, hindex]
    rfl

/-- A value that is written twice to one slot: the last one counts. A long takes two slots, and the
same two each time. -/
theorem updateValue_again (hS : S.Lawful U) {type type' : DeferredType} {i j : ℕ}
    (hfits : i = j ∧ type = type' ∨ i + type.slots ≤ j ∨ j + type'.slots ≤ i) (h : i = j)
    (v w : J) (c : C) :
    updateValue U S type i v (updateValue U S type' j w c) = updateValue U S type i v c := by
  obtain rfl := DeferredType.eq_of_fits hfits h
  obtain rfl := h
  exact hS.again type i v w c

/-- Values that are written to slots apart, in either order. -/
theorem updateValue_apart (hS : S.Lawful U) {type type' : DeferredType} {i j : ℕ}
    (hfits : i = j ∧ type = type' ∨ i + type.slots ≤ j ∨ j + type'.slots ≤ i) (h : i ≠ j)
    (v w : J) (c : C) :
    updateValue U S type i v (updateValue U S type' j w c) =
      updateValue U S type' j w (updateValue U S type i v c) :=
  hS.apart type type' i j v w c (hfits.resolve_left fun hsame => h hsame.1)

/-- Of two stores to one local the last one counts. -/
theorem toLocals_again (hS : S.Lawful U) (hfits : s.Fits t) (h : s.SameSlot t) (c : C) :
    s.toLocals U S (t.toLocals U S c) = s.toLocals U S c := by
  cases s with
  | local_ type i v =>
    cases t with
    | local_ type' j w => exact updateValue_again hS hfits h v w c
    | _ => exact h.elim
  | _ => cases t <;> first | rfl | exact h.elim

/-- Stores that are not to one slot commute on the locals. -/
theorem toLocals_apart (hS : S.Lawful U) (hfits : s.Fits t) (h : ¬ s.SameSlot t) (c : C) :
    s.toLocals U S (t.toLocals U S c) = t.toLocals U S (s.toLocals U S c) := by
  cases s with
  | local_ type i v =>
    cases t with
    | local_ type' j w => exact updateValue_apart hS hfits h v w c
    | _ => rfl
  | _ => rfl

/-- Of two stores to one expression stack slot the last one counts. -/
theorem toExpressions_again (hS : S.Lawful U) (hfits : s.Fits t) (h : s.SameSlot t) (c : C) :
    s.toExpressions U S (t.toExpressions U S c) = s.toExpressions U S c := by
  cases s with
  | stack type i v =>
    cases t with
    | stack type' j w => exact updateValue_again hS hfits h v w c
    | _ => exact h.elim
  | _ => cases t <;> first | rfl | exact h.elim

/-- Stores that are not to one slot commute on the expression stack. -/
theorem toExpressions_apart (hS : S.Lawful U) (hfits : s.Fits t) (h : ¬ s.SameSlot t) (c : C) :
    s.toExpressions U S (t.toExpressions U S c) = t.toExpressions U S (s.toExpressions U S c) := by
  cases s with
  | stack type i v =>
    cases t with
    | stack type' j w => exact updateValue_apart hS hfits h v w c
    | _ => rfl
  | _ => rfl

/-- Of two owners that a monitor is given the last one counts. -/
theorem setOwner_again (i : ℕ) (v w : J) (monitors : List MonitorInfo) :
    setOwner U i v (setOwner U i w monitors) = setOwner U i v monitors := by
  unfold setOwner
  rw [List.modify_modify_eq]
  rfl

/-- The owners of two monitors are set in either order. -/
theorem setOwner_apart {i j : ℕ} (h : i ≠ j) (v w : J) (monitors : List MonitorInfo) :
    setOwner U i v (setOwner U j w monitors) = setOwner U j w (setOwner U i v monitors) := by
  unfold setOwner
  rw [List.modify_modify_ne _ _ _ h.symm]

/-- Of two stores to one monitor the last one counts. -/
theorem toMonitors_again (h : s.SameSlot t) (monitors : List MonitorInfo) :
    s.toMonitors U (t.toMonitors U monitors) = s.toMonitors U monitors := by
  cases s with
  | monitor i v =>
    cases t with
    | monitor j w =>
      obtain rfl : i = j := h
      exact setOwner_again i v w monitors
    | _ => exact h.elim
  | _ => cases t <;> first | rfl | exact h.elim

/-- Stores that are not to one slot commute on the monitors. -/
theorem toMonitors_apart (h : ¬ s.SameSlot t) (monitors : List MonitorInfo) :
    s.toMonitors U (t.toMonitors U monitors) = t.toMonitors U (s.toMonitors U monitors) := by
  cases s with
  | monitor i v =>
    cases t with
    | monitor j w => exact setOwner_apart h v w monitors
    | _ => rfl
  | _ => rfl

/-- The readers of a frame see all the stores into it, and no others. -/
theorem deferred_reads_replay (hS : S.Lawful U) (method : VFrameId → MethodLimits)
    (frame : VFrameId) (stores : List (VFrameId × FrameStore J))
    (hfit : StoresFit (method frame) (storesInto frame stores)) (locals expressions : C)
    (monitors : List MonitorInfo) :
    readDeferred (updateLocal U S (method frame)) frame (stores.foldl (storeInto method) none)
        locals = (storesInto frame stores).foldl (FrameStore.toLocals U S) locals ∧
      readDeferred (updateExpression U S (method frame)) frame
        (stores.foldl (storeInto method) none) expressions =
          (storesInto frame stores).foldl (FrameStore.toExpressions U S) expressions ∧
      readDeferred (updateMonitor U (method frame)) frame
        (stores.foldl (storeInto method) none) monitors =
          (storesInto frame stores).foldl (FrameStore.toMonitors U) monitors := by
  refine ⟨?_, ?_, ?_⟩
  · exact readDeferred_stores hfit (fun _ => updateLocal_entry)
      (fun _ _ hfits hsame => toLocals_again hS hfits hsame)
      (fun _ _ hfits hapart => toLocals_apart hS hfits hapart) locals
  · exact readDeferred_stores hfit (fun _ => updateExpression_entry)
      (fun _ _ hfits hsame => toExpressions_again hS hfits hsame)
      (fun _ _ hfits hapart => toExpressions_apart hS hfits hapart) expressions
  · exact readDeferred_stores hfit (fun _ => updateMonitor_entry)
      (fun _ _ _ hsame => toMonitors_again hsame)
      (fun _ _ _ hapart => toMonitors_apart hapart) monitors

end

/-! ## A collection of slots

The collection of a 64-bit VM, where a long takes two slots and has its bits in the second. It has
the laws that are assumed above. -/

/-- A value has its bits in the last of its slots, as in a 64-bit VM. -/
def slotCollection : StackValueCollection (ℕ → ℤ) where
  setIntAt i v c := Function.update c i v
  setFloatAt i v c := Function.update c i v
  setDoubleAt i v c := Function.update c (i + 1) v
  setLongAt i v c := Function.update c (i + 1) v
  setObjAt i w c := Function.update c i w.toNat

/-- The members of a value that is a number. -/
def slotValues : JValueUnion ℤ where
  z := id
  c := id
  f := id
  d := id
  b := id
  s := id
  i := id
  j := id
  l v := UInt64.ofNat v.toNat

/-- A collection where each slot has one cell: a value is put in the last of its slots. -/
theorem updateValue_slots (type : DeferredType) (i : ℕ) (v : ℤ) :
    ∃ bits, ∀ c, updateValue slotValues slotCollection type i v c =
      Function.update c (i + (type.slots - 1)) bits := by
  cases type <;> exact ⟨_, fun c => rfl⟩

/-- Such a collection has the laws that are assumed of a `StackValueCollection`. -/
theorem lawful_slotCollection : slotCollection.Lawful slotValues where
  again type i v w c := by
    obtain ⟨bits, hbits⟩ := updateValue_slots type i v
    obtain ⟨bits', hbits'⟩ := updateValue_slots type i w
    rw [hbits, hbits, hbits', Function.update_idem]
  apart type type' i j v w c h := by
    obtain ⟨bits, hbits⟩ := updateValue_slots type i v
    obtain ⟨bits', hbits'⟩ := updateValue_slots type' j w
    have hpos := type.slots_pos
    have hpos' := type'.slots_pos
    have hne : i + (type.slots - 1) ≠ j + (type'.slots - 1) := by omega
    rw [hbits, hbits, hbits', hbits', Function.update_comm hne.symm]

/-- The limits of a method with two local variables. -/
def slotMethod (_ : VFrameId) : MethodLimits := ⟨2, 1⟩

/-- A long that is stored twice, an operand, the owner of a monitor, and a store to the caller. -/
def slotStores : List (VFrameId × FrameStore ℤ) :=
  [(⟨1, 0⟩, .local_ .long 0 5), (⟨1, 0⟩, .stack .int 0 7), (⟨1, 1⟩, .local_ .int 0 1),
    (⟨1, 0⟩, .local_ .long 0 9), (⟨1, 0⟩, .monitor 0 3)]

theorem storesInto_slotStores : storesInto ⟨1, 0⟩ slotStores =
    [.local_ .long 0 5, .stack .int 0 7, .local_ .long 0 9, .monitor 0 3] := rfl

theorem slotStores_fit : StoresFit (slotMethod ⟨1, 0⟩) (storesInto ⟨1, 0⟩ slotStores) where
  bounds := by simp [storesInto_slotStores, FrameStore.InBounds, slotMethod]
  fits := by simp [storesInto_slotStores, FrameStore.Fits]

theorem deferred_reads_replay_slotStores :
    readDeferred (updateLocal slotValues slotCollection (slotMethod ⟨1, 0⟩)) ⟨1, 0⟩
        (slotStores.foldl (storeInto slotMethod) none) (fun _ => 0) 1 = 9 ∧
      readDeferred (updateExpression slotValues slotCollection (slotMethod ⟨1, 0⟩)) ⟨1, 0⟩
        (slotStores.foldl (storeInto slotMethod) none) (fun _ => 0) 0 = 7 ∧
      readDeferred (updateMonitor slotValues (slotMethod ⟨1, 0⟩)) ⟨1, 0⟩
        (slotStores.foldl (storeInto slotMethod) none) [⟨1, 80, false, false⟩] =
          [⟨3, 80, false, false⟩] := by
  obtain ⟨hlocals, hexpressions, hmonitors⟩ := deferred_reads_replay lawful_slotCollection
    slotMethod ⟨1, 0⟩ slotStores slotStores_fit (fun _ => 0) (fun _ => 0) [⟨1, 80, false, false⟩]
  rw [hlocals, hexpressions, hmonitors, storesInto_slotStores]
  exact ⟨rfl, rfl, rfl⟩

/-- A long, its second half by itself, and the long again. -/
def overlappingStores : List (VFrameId × FrameStore ℤ) :=
  [(⟨1, 0⟩, .local_ .long 0 5), (⟨1, 0⟩, .local_ .int 1 7), (⟨1, 0⟩, .local_ .long 0 9)]

/-- The asserted bounds are not enough: the last value of an overlapping store is lost. -/
theorem not_reads_replay_of_inBounds : ¬ ∀ stores : List (VFrameId × FrameStore ℤ),
    (∀ s ∈ storesInto ⟨1, 0⟩ stores, s.InBounds (slotMethod ⟨1, 0⟩)) →
      readDeferred (updateLocal slotValues slotCollection (slotMethod ⟨1, 0⟩)) ⟨1, 0⟩
        (stores.foldl (storeInto slotMethod) none) (fun _ => 0) =
          (storesInto ⟨1, 0⟩ stores).foldl (FrameStore.toLocals slotValues slotCollection)
            (fun _ => 0) := by
  intro h
  have hinto : storesInto ⟨1, 0⟩ overlappingStores =
      [.local_ .long 0 5, .local_ .int 1 7, .local_ .long 0 9] := rfl
  have hbounds : ∀ s ∈ storesInto ⟨1, 0⟩ overlappingStores, s.InBounds (slotMethod ⟨1, 0⟩) := by
    simp [hinto, FrameStore.InBounds, slotMethod]
  have hslot := congrFun (h overlappingStores hbounds) 1
  have hread : readDeferred (updateLocal slotValues slotCollection (slotMethod ⟨1, 0⟩)) ⟨1, 0⟩
      (overlappingStores.foldl (storeInto slotMethod) none) (fun _ => 0) 1 = 7 := rfl
  have hreplay : (storesInto ⟨1, 0⟩ overlappingStores).foldl
      (FrameStore.toLocals slotValues slotCollection) (fun _ => 0) 1 = 9 := rfl
  rw [hread, hreplay] at hslot
  exact absurd hslot (by decide)

end StackAllocation
