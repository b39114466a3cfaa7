import StackAllocation.OopMapScan

/-!
# Derived pointers across a scan

The first loop of `all_do` records the derived pointers whose base is a heap
object, and leaves the address of the base in the slot. `update_pointers` goes
through the table when the collector is done. The two loops only write to slots
of derived pointers, which hold nothing else of the map, so what happens between
them cannot be seen by them except through the bases.

Together with the walk this is the contract of `OopMapSet::oops_do` for one frame
(`all_do_visits`).
-/

namespace StackAllocation

/-! ## The table

The table has an entry for each derived pointer that was recorded: where it is, and its distance
from the base. When the collector is done, each slot gets what the base's slot has then, and the
distance added to it. -/

/-- What is not in the table is not updated. -/
theorem updateEntries_of_notMem (entries : List (Word × Word)) (a : Word)
    (ha : a ∉ entries.map Prod.fst) : ∀ mem, updateEntries entries mem a = mem a := by
  induction entries with
  | nil => exact fun _ => rfl
  | cons e rest ih =>
    intro mem
    simp only [List.map_cons, List.mem_cons, not_or] at ha
    rw [updateEntries, ih ha.2, Function.update_of_ne ha.1]

/-- Every entry gets its base's value plus the offset when no entry's slot is another's
base. -/
theorem updateEntries_of_mem (entries : List (Word × Word)) :
    ∀ mem : Word → Word, (entries.map Prod.fst).Nodup →
      (∀ e ∈ entries, mem e.1 ∉ entries.map Prod.fst) →
      ∀ e ∈ entries, updateEntries entries mem e.1 = mem (mem e.1) + e.2 := by
  induction entries with
  | nil => exact fun _ _ _ e he => absurd he List.not_mem_nil
  | cons d rest ih =>
    intro mem hnodup hbase e he
    simp only [List.map_cons, List.nodup_cons] at hnodup
    rw [updateEntries]
    rcases List.mem_cons.mp he with rfl | he
    · rw [updateEntries_of_notMem _ _ hnodup.1, Function.update_self]
    · have hne : ∀ f ∈ rest, f.1 ≠ d.1 := fun f hf h =>
        hnodup.1 (h ▸ List.mem_map_of_mem hf)
      have hb : ∀ f ∈ rest, mem f.1 ∉ d.1 :: rest.map Prod.fst := fun f hf =>
        hbase f (List.mem_cons_of_mem _ hf)
      rw [ih _ hnodup.2 ?_ e he]
      · rw [Function.update_of_ne (hne e he),
          Function.update_of_ne (List.ne_of_not_mem_cons (hb e he))]
      · intro f hf
        rw [Function.update_of_ne (hne f hf)]
        exact fun h => hb f hf (List.mem_cons_of_mem _ h)

/-! ## Recording

While a derived pointer is recorded, its slot is overwritten with the place of its base. So the loop
changes the memory that it reads; it works because no slot of a derived pointer is a base, and none
is recorded twice. -/

namespace CompiledFrame

variable {VMReg : Type} {flags : ScanFlags} (Fr : CompiledFrame VMReg flags)

/-- The slot of an entry's derived pointer. -/
def derivedSlot (omv : OopMapValue VMReg) : Option Word :=
  if omv.type = .derivedOopValue then Fr.location omv.reg else none

/-- What is recorded of an entry: the slot of the derived pointer and the slot of its
base. -/
def recordOf (omv : OopMapValue VMReg) : Option (Word × Word) :=
  match Fr.derivedSlot omv, Fr.location omv.contentReg with
  | some d, some b =>
    if Fr.isNull (Fr.mem b) || Fr.inFrame (Fr.mem b) then none else some (d, b)
  | _, _ => none

/-- The table entry of a record. -/
def entryOf (r : Word × Word) : Word × Word := (r.1, Fr.mem r.1 - Fr.mem r.2)

variable {Fr}

/-- What is recorded for an entry: a derived pointer whose base is neither null nor in the frame. -/
theorem recordOf_eq_some {omv : OopMapValue VMReg} {d b : Word} :
    Fr.recordOf omv = some (d, b) ↔
      Fr.derivedSlot omv = some d ∧ Fr.location omv.contentReg = some b ∧
        Fr.isNull (Fr.mem b) = false ∧ Fr.inFrame (Fr.mem b) = false := by
  constructor
  · intro h
    unfold recordOf at h
    split at h
    · split at h
      · cases h
      · rename_i hcond
        cases h
        simp only [Bool.or_eq_true, not_or, Bool.not_eq_true] at hcond
        exact ⟨‹_›, ‹_›, hcond⟩
    · cases h
  · rintro ⟨hd, hb, hn, hi⟩
    simp [recordOf, hd, hb, hn, hi]

/-- The slot of a derived pointer. -/
theorem derivedSlot_eq_some {omv : OopMapValue VMReg} {d : Word} :
    Fr.derivedSlot omv = some d ↔ omv.type = .derivedOopValue ∧ Fr.location omv.reg = some d := by
  rw [derivedSlot]
  split <;> simp_all

/-- Records are records of derived pointers. -/
theorem records_sublist (omvs : List (OopMapValue VMReg)) :
    ((omvs.filterMap Fr.recordOf).map Prod.fst).Sublist (omvs.filterMap Fr.derivedSlot) := by
  induction omvs with
  | nil => exact List.Sublist.refl _
  | cons omv omvs ih =>
    cases hr : Fr.recordOf omv with
    | none =>
      rw [List.filterMap_cons_none hr, List.filterMap_cons]
      split
      · exact ih
      · exact ih.cons _
    | some r =>
      obtain ⟨d, b⟩ := r
      obtain ⟨hd, -⟩ := recordOf_eq_some.mp hr
      rw [List.filterMap_cons_some hr, List.filterMap_cons_some hd]
      exact ih.cons_cons d

/-- What the first loop does to a state: it records, and writes the place of the base
to the slots it records. -/
structure Records (Fr : CompiledFrame VMReg flags) (omvs : List (OopMapValue VMReg))
    (s s' : ScanState) : Prop where
  entries : s'.entries = ((omvs.filterMap Fr.recordOf).map Fr.entryOf).reverse ++ s.entries
  slots : ∀ r ∈ omvs.filterMap Fr.recordOf, s'.mem r.1 = r.2
  mem : ∀ a, a ∉ (omvs.filterMap Fr.recordOf).map Prod.fst → s'.mem a = s.mem a
  calls : s'.calls = s.calls
  active : s'.active = s.active

/-- An entry of which nothing is recorded. -/
theorem Records.skip {omv : OopMapValue VMReg} {omvs : List (OopMapValue VMReg)}
    {s s' : ScanState} (h : Fr.recordOf omv = none) (hs : Fr.Records omvs s s') :
    Fr.Records (omv :: omvs) s s' := by
  obtain ⟨hentries, hslots, hmem, hcalls, hactive⟩ := hs
  refine ⟨?_, ?_, ?_, hcalls, hactive⟩
  all_goals rwa [List.filterMap_cons_none h]

/-- An entry that is recorded. -/
theorem Records.add {omv : OopMapValue VMReg} {omvs : List (OopMapValue VMReg)}
    {s s' : ScanState} {d b : Word} (h : Fr.recordOf omv = some (d, b))
    (hactive : s.active = true) (hd : s.mem d = Fr.mem d) (hb : s.mem b = Fr.mem b)
    (hnew : d ∉ (omvs.filterMap Fr.recordOf).map Prod.fst)
    (hs : Fr.Records omvs (s.addDerivedOop b d) s') :
    Fr.Records (omv :: omvs) s s' := by
  rw [ScanState.addDerivedOop, if_pos hactive] at hs
  refine ⟨?_, ?_, ?_, hs.calls, hs.active⟩
  · rw [hs.entries, List.filterMap_cons_some h]
    simp [entryOf, hd, hb]
  · intro r hr
    rw [List.filterMap_cons_some h] at hr
    rcases List.mem_cons.mp hr with rfl | hr
    · rw [hs.mem d hnew]
      exact Function.update_self ..
    · exact hs.slots r hr
  · intro a ha
    rw [List.filterMap_cons_some h, List.map_cons, List.mem_cons, not_or] at ha
    rw [hs.mem a ha.2]
    exact Function.update_of_ne ha.1 ..

/-- The loop over the derived pointers records each of them, with the distance to its base as it is
before any base moves. -/
theorem derivedLoop_records (omvs : List (OopMapValue VMReg)) (hmap : ∀ o ∈ omvs, o ∈ Fr.map)
    (hnodup : (omvs.filterMap Fr.derivedSlot).Nodup) :
    ∀ s : ScanState, s.active = true →
      (∀ a, a ∈ omvs.filterMap Fr.derivedSlot ∨ a ∉ Fr.derivedSlots → s.mem a = Fr.mem a) →
      ∃ s', derivedLoop Fr.toFrameInfo flags omvs s = some s' ∧ Fr.Records omvs s s' := by
  induction omvs with
  | nil => exact fun s _ _ => ⟨s, rfl, rfl, by simp, fun _ _ => rfl, rfl, rfl⟩
  | cons omv omvs ih =>
    intro s hactive hmem
    have homv := hmap omv List.mem_cons_self
    have ih := ih fun o ho => hmap o (List.mem_cons_of_mem _ ho)
    rw [derivedLoop]
    by_cases htype : omv.type = .derivedOopValue
    · obtain ⟨d, hd⟩ := Option.isSome_iff_exists.mp (Fr.located omv homv)
      have hslot : Fr.derivedSlot omv = some d := derivedSlot_eq_some.mpr ⟨htype, hd⟩
      rw [List.filterMap_cons_some hslot] at hnodup hmem
      obtain ⟨hdnew, hnodup⟩ := List.nodup_cons.mp hnodup
      have ih := ih hnodup
      have hrest : ∀ a, a ∈ omvs.filterMap Fr.derivedSlot ∨ a ∉ Fr.derivedSlots →
          s.mem a = Fr.mem a := fun a ha => hmem a (ha.imp_left (List.mem_cons_of_mem _))
      rw [if_neg (not_not.mpr htype), hd]
      cases hb : Fr.location omv.contentReg with
      | none =>
        obtain ⟨s', hs', hrec⟩ := ih s hactive hrest
        exact ⟨s', hs', hrec.skip (by simp [recordOf, hb])⟩
      | some b =>
        have hbmem : s.mem b = Fr.mem b :=
          hmem b (.inr (Fr.base_notMem omv homv htype b hb))
        have hdmem : s.mem d = Fr.mem d := hmem d (.inl List.mem_cons_self)
        have hflag := flag_and_inFrame homv (.inr rfl) hb
        simp only [hbmem, hflag]
        cases hnull : Fr.isNull (Fr.mem b) with
        | true =>
          obtain ⟨s', hs', hrec⟩ := ih s hactive hrest
          exact ⟨s', hs', hrec.skip (by simp [recordOf, hslot, hb, hnull])⟩
        | false =>
          cases hin : Fr.inFrame (Fr.mem b) with
          | true =>
            obtain ⟨s', hs', hrec⟩ := ih s hactive hrest
            exact ⟨s', hs', hrec.skip (by simp [recordOf, hslot, hb, hin])⟩
          | false =>
            have hd' : d ∈ Fr.derivedSlots := List.mem_filterMap.mpr ⟨omv, homv, hslot⟩
            have hactive' : (s.addDerivedOop b d).active = true := by
              rw [ScanState.addDerivedOop, if_pos hactive]
              exact hactive
            have hrest' : ∀ a, a ∈ omvs.filterMap Fr.derivedSlot ∨ a ∉ Fr.derivedSlots →
                (s.addDerivedOop b d).mem a = Fr.mem a := by
              intro a ha
              have hne : a ≠ d := by
                rintro rfl
                exact ha.elim hdnew (fun h => h hd')
              rw [ScanState.addDerivedOop, if_pos hactive]
              exact (Function.update_of_ne hne ..).trans (hrest a ha)
            obtain ⟨s', hs', hrec⟩ := ih _ hactive' hrest'
            exact ⟨s', hs', hrec.add (recordOf_eq_some.mpr ⟨hslot, hb, hnull, hin⟩)
              hactive hdmem hbmem fun h => hdnew ((records_sublist omvs).mem h)⟩
    · have hslot : Fr.derivedSlot omv = none := by
        rw [derivedSlot, if_neg htype]
      rw [List.filterMap_cons_none hslot] at hnodup hmem
      obtain ⟨s', hs', hrec⟩ := ih hnodup s hactive hmem
      refine ⟨s', ?_, hrec.skip (by simp [recordOf, hslot])⟩
      rw [if_pos htype]
      exact hs'

/-! ## The whole scan

The first loop records, the second walks over references, and what the second does cannot touch the
slots of the first. So the table still fits at the end, whatever the collector has moved. -/

/-- The state in which a frame is scanned: the table has been cleared. -/
def start (Fr : CompiledFrame VMReg flags) : ScanState :=
  ScanState.clear ⟨Fr.mem, [], [], false, []⟩

/-- The records of the whole map. -/
def records (Fr : CompiledFrame VMReg flags) : List (Word × Word) := Fr.map.filterMap Fr.recordOf

/-- No derived pointer is recorded twice. -/
theorem derivedSlots_nodup : Fr.derivedSlots.Nodup := (List.nodup_append.mp Fr.nodup).1

/-- What is recorded is the slot of a derived pointer. -/
theorem mem_derivedSlots_of_record {r : Word × Word} (hr : r ∈ Fr.records) :
    r.1 ∈ Fr.derivedSlots :=
  (records_sublist Fr.map).mem (List.mem_map_of_mem hr)

/-- The base of a derived pointer is none itself. -/
theorem base_notMem_of_record {r : Word × Word} (hr : r ∈ Fr.records) :
    r.2 ∉ Fr.derivedSlots := by
  obtain ⟨omv, homv, hrec⟩ := List.mem_filterMap.mp hr
  obtain ⟨hd, hb, -⟩ := recordOf_eq_some.mp hrec
  exact Fr.base_notMem omv homv (derivedSlot_eq_some.mp hd).1 _ hb

/-- The table after the scan of a frame. -/
theorem entries_eq {s₁ s' : ScanState} (hrec : Fr.Records Fr.map Fr.start s₁)
    (hscan : Fr.Scanned { s₁ with stackOops := [] } [] s') :
    s'.entries = (Fr.records.map Fr.entryOf).reverse := by
  rw [hscan.table.2]
  exact hrec.entries.trans (List.append_nil _)

/-- The table has the slots that were recorded, each once. -/
theorem map_fst_entries {s₁ s' : ScanState} (hrec : Fr.Records Fr.map Fr.start s₁)
    (hscan : Fr.Scanned { s₁ with stackOops := [] } [] s') :
    s'.entries.map Prod.fst = (Fr.records.map Prod.fst).reverse := by
  rw [entries_eq hrec hscan, List.map_reverse, List.map_map]
  rfl

/-- An entry has a slot of its own. -/
theorem eq_of_derivedSlot_eq (omvs : List (OopMapValue VMReg))
    (hnodup : (omvs.filterMap Fr.derivedSlot).Nodup) {o p : OopMapValue VMReg} {d : Word}
    (ho : o ∈ omvs) (hp : p ∈ omvs) (hod : Fr.derivedSlot o = some d)
    (hpd : Fr.derivedSlot p = some d) : o = p := by
  induction omvs with
  | nil => exact absurd ho List.not_mem_nil
  | cons omv omvs ih =>
    have hfirst : Fr.derivedSlot omv = some d → ∀ r ∈ omvs, Fr.derivedSlot r ≠ some d := by
      intro h r hr hrd
      rw [List.filterMap_cons_some h] at hnodup
      exact (List.nodup_cons.mp hnodup).1 (List.mem_filterMap.mpr ⟨r, hr, hrd⟩)
    rcases List.mem_cons.mp ho with rfl | ho'
    · rcases List.mem_cons.mp hp with rfl | hp'
      · rfl
      · exact absurd hpd (hfirst hod p hp')
    · rcases List.mem_cons.mp hp with rfl | hp'
      · exact absurd hod (hfirst hpd o ho')
      · refine ih ?_ ho' hp'
        exact hnodup.sublist ((List.sublist_cons_self _ _).filterMap _)

/-- The record of an entry of the map. -/
theorem mem_records_iff {omv : OopMapValue VMReg} (homv : omv ∈ Fr.map) {d : Word}
    (hd : Fr.derivedSlot omv = some d) {b : Word} :
    (d, b) ∈ Fr.records ↔ Fr.recordOf omv = some (d, b) := by
  constructor
  · intro h
    obtain ⟨p, hp, hrec⟩ := List.mem_filterMap.mp h
    have hpd := (recordOf_eq_some.mp hrec).1
    rwa [eq_of_derivedSlot_eq Fr.map Fr.derivedSlots_nodup homv hp hd hpd]
  · exact fun h => List.mem_filterMap.mpr ⟨omv, homv, h⟩

/-- `all_do` terminates; it records, and then walks. -/
theorem allDo_eq_some (hverify : flags.verifyStack = false) (closure : OopClosure) {fuel : ℕ}
    (hfuel : Fr.objects.length < fuel) :
    ∃ s₁ s', allDo Fr.toFrameInfo flags closure fuel Fr.start = some s' ∧
      Fr.Records Fr.map Fr.start s₁ ∧ Fr.Scanned { s₁ with stackOops := [] } [] s' := by
  obtain ⟨s₁, hs₁, hrec⟩ := derivedLoop_records Fr.map (fun _ h => h) Fr.derivedSlots_nodup
    Fr.start rfl fun _ _ => rfl
  have hmem : ∀ q ∈ Fr.refSlots, s₁.mem q.addr = Fr.mem q.addr := fun q hq =>
    hrec.mem _ fun h => Fr.addr_notMem_derivedSlots hq ((records_sublist Fr.map).mem h)
  have hs₀ : ∀ q ∈ Fr.refSlots, ({ s₁ with stackOops := [] } : ScanState).mem q.addr =
      Fr.mem q.addr := hmem
  obtain ⟨s', hs', hscan⟩ := oopLoop_scanned hs₀ hverify closure Fr.map (fun _ h => h) _
    (scanned_start hrec.calls) (Nat.lt_of_le_of_lt (List.length_filter_le _ _) hfuel)
  refine ⟨s₁, s', ?_, hrec, hscan⟩
  rw [allDo, hs₁]
  exact hs'

/-- The state the collector leaves to `update_pointers`: it may have written anything
but the slots of derived pointers. -/
def LeavesDerived (Fr : CompiledFrame VMReg flags) (s : ScanState) (mem : Word → Word) : Prop :=
  ∀ d ∈ Fr.derivedSlots, mem d = s.mem d

/-- What `update_pointers` does to the derived pointers of a frame that was scanned. -/
theorem updatePointers_mem {s₁ s' : ScanState} (hrec : Fr.Records Fr.map Fr.start s₁)
    (hscan : Fr.Scanned { s₁ with stackOops := [] } [] s') {mem : Word → Word}
    (hmem : Fr.LeavesDerived s' mem) :
    (∀ r ∈ Fr.records, ({ s' with mem := mem } : ScanState).updatePointers.mem r.1 =
      mem r.2 + (Fr.mem r.1 - Fr.mem r.2)) ∧
    ∀ d ∈ Fr.derivedSlots, d ∉ Fr.records.map Prod.fst →
      ({ s' with mem := mem } : ScanState).updatePointers.mem d = Fr.mem d := by
  have hentries := entries_eq hrec hscan
  have hfst := map_fst_entries hrec hscan
  have hnodup : (s'.entries.map Prod.fst).Nodup := by
    rw [hfst, List.nodup_reverse]
    exact Fr.derivedSlots_nodup.sublist (records_sublist Fr.map)
  -- the walk does not write to slots of derived pointers
  have hslot : ∀ d ∈ Fr.derivedSlots, mem d = s₁.mem d := by
    intro d hd
    rw [hmem d hd, hscan.mem]
    intro h
    obtain ⟨c, hc, rfl⟩ := List.mem_map.mp h
    exact Fr.addr_notMem_derivedSlots (hscan.mem_refSlots (hscan.calls c hc).1) hd
  have hplace : ∀ r ∈ Fr.records, mem r.1 = r.2 := fun r hr =>
    (hslot _ (mem_derivedSlots_of_record hr)).trans (hrec.slots r hr)
  constructor
  · intro r hr
    have he : Fr.entryOf r ∈ s'.entries := by
      rw [hentries, List.mem_reverse]
      exact List.mem_map_of_mem hr
    have hbase : ∀ e ∈ s'.entries, mem e.1 ∉ s'.entries.map Prod.fst := by
      intro e he hcontra
      rw [hentries, List.mem_reverse] at he
      obtain ⟨t, ht, rfl⟩ := List.mem_map.mp he
      rw [hfst, List.mem_reverse, entryOf, hplace t ht] at hcontra
      exact base_notMem_of_record ht ((records_sublist Fr.map).mem hcontra)
    have := updateEntries_of_mem s'.entries mem hnodup hbase _ he
    rw [entryOf, hplace r hr] at this
    exact this
  · intro d hd hnot
    have hnot' : d ∉ s'.entries.map Prod.fst := by rwa [hfst, List.mem_reverse]
    exact (updateEntries_of_notMem _ _ hnot' mem).trans ((hslot d hd).trans (hrec.mem d hnot))

/-- `OopMapSet::oops_do` on a compiled frame, with `VerifyStack` off. It terminates. It
applies the closure to the slots to visit, once each, when they still have the contents
the frame had, and never to an address in the frame. A derived pointer is recorded
exactly when its base is not `NULL` and not in the frame; `update_pointers` gives it its
base's new value plus the old distance, and leaves the others alone. -/
theorem all_do_visits (Fr : CompiledFrame VMReg flags) (hverify : flags.verifyStack = false)
    (closure : OopClosure) (fuel : ℕ) (hfuel : Fr.objects.length < fuel) :
    ∃ s', allDo Fr.toFrameInfo flags closure fuel Fr.start = some s' ∧
      (∀ q, q ∈ s'.calls.map Prod.fst ↔ Fr.ToVisit q) ∧
      (s'.calls.map Prod.fst).Nodup ∧
      (∀ c ∈ s'.calls, c.2 = Fr.mem c.1.addr ∧ Fr.inFrame (Fr.load Fr.mem c.1) = false) ∧
      ∀ omv ∈ Fr.map, omv.type = .derivedOopValue → ∀ d, Fr.location omv.reg = some d →
        (d ∈ s'.entries.map Prod.fst ↔ ∃ b, Fr.location omv.contentReg = some b ∧
          Fr.isNull (Fr.mem b) = false ∧ Fr.inFrame (Fr.mem b) = false) ∧
        ∀ mem, Fr.LeavesDerived s' mem →
          (∀ b, Fr.location omv.contentReg = some b → d ∈ s'.entries.map Prod.fst →
            ({ s' with mem := mem } : ScanState).updatePointers.mem d =
              mem b + (Fr.mem d - Fr.mem b)) ∧
          (d ∉ s'.entries.map Prod.fst →
            ({ s' with mem := mem } : ScanState).updatePointers.mem d = Fr.mem d) := by
  obtain ⟨s₁, s', hs', hrec, hscan⟩ := allDo_eq_some hverify closure hfuel
  have hfst := map_fst_entries hrec hscan
  refine ⟨s', hs', fun q => hscan.mem_calls_iff, ?_, fun c hc => (hscan.calls c hc).2, ?_⟩
  · exact (List.append_nil (s'.calls.map Prod.fst)) ▸ hscan.once
  · intro omv homv htype d hd
    have hslot : Fr.derivedSlot omv = some d := derivedSlot_eq_some.mpr ⟨htype, hd⟩
    have hdmem : d ∈ Fr.derivedSlots := List.mem_filterMap.mpr ⟨omv, homv, hslot⟩
    have hrecorded : d ∈ s'.entries.map Prod.fst ↔ ∃ b, Fr.recordOf omv = some (d, b) := by
      rw [hfst, List.mem_reverse, List.mem_map]
      constructor
      · rintro ⟨⟨d', b⟩, hr, rfl⟩
        exact ⟨b, (mem_records_iff homv hslot).mp hr⟩
      · rintro ⟨b, hr⟩
        exact ⟨(d, b), (mem_records_iff homv hslot).mpr hr, rfl⟩
    refine ⟨?_, fun mem hmem => ⟨?_, ?_⟩⟩
    · rw [hrecorded]
      exact exists_congr fun b => recordOf_eq_some.trans (and_iff_right hslot)
    · intro b hb hin
      obtain ⟨b', hr⟩ := hrecorded.mp hin
      obtain rfl : b' = b := Option.some.inj ((recordOf_eq_some.mp hr).2.1.symm.trans hb)
      exact (updatePointers_mem hrec hscan hmem).1 _ ((mem_records_iff homv hslot).mpr hr)
    · intro hnot
      rw [hfst, List.mem_reverse] at hnot
      exact (updatePointers_mem hrec hscan hmem).2 d hdmem hnot

/-- The flags of the collector's scan. -/
def scanFlags : ScanFlags := ⟨true, false, true⟩

/-- The words of `cyclicFrame`: the stack objects at 104 and 120 refer to each other, and
the first to a heap object at 1000; a derived pointer 24 bytes into that object is at
140. -/
def cyclicFrameMem (a : Word) : Word :=
  if a = 132 then 104 else if a = 108 then 120 else if a = 124 then 104
  else if a = 112 ∨ a = 148 then 1000 else if a = 140 then 1024 else 0

/-- A frame with two stack objects in a cycle. -/
def cyclicFrame : CompiledFrame ℕ scanFlags where
  base := 100
  top := 200
  map := [⟨0, .oopValue, 0⟩, ⟨1, .derivedOopValue, 2⟩, ⟨2, .oopValue, 0⟩, ⟨3, .narrowoopValue, 0⟩]
  location r := if r = 0 then some 132 else if r = 1 then some 140
    else if r = 2 then some 148 else some 152
  isStack _ := true
  isCompressedBase _ := false
  decode v := v * 8
  isTypeArray _ := false
  oopSlots o := if o = 104 then [⟨108, false⟩, ⟨112, false⟩]
    else if o = 120 then [⟨124, false⟩, ⟨128, true⟩] else []
  described _ := true
  mem := cyclicFrameMem
  objects := [104, 120]
  located := by decide
  nodup := by decide
  base_notMem := by simp; decide
  narrow_notInFrame := by decide
  mem_objects := by decide
  runtime h := by cases h

/-- Two objects in the frame that refer to each other are visited once each. -/
theorem all_do_visits_cyclicFrame :
    scanFlags.verifyStack = false ∧ cyclicFrame.objects.length < 3 ∧
      ∃ s', allDo cyclicFrame.toFrameInfo scanFlags (fun _ _ v => v + 8) 3 cyclicFrame.start =
        some s' ∧ ∀ q, q ∈ s'.calls.map Prod.fst ↔ cyclicFrame.ToVisit q := by
  obtain ⟨s', hs', hcalls, -⟩ :=
    all_do_visits cyclicFrame rfl (fun _ _ v => v + 8) 3 (by decide)
  exact ⟨rfl, by decide, s', hs', hcalls⟩

end CompiledFrame

end StackAllocation
