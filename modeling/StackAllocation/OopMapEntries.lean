import StackAllocation.ReachingFlows

/-!
# What the oop maps say

A register is in the oop map of a safepoint at most once, as the node that set it tells
(`Classified`). A `BoxLock` counts as a stack oop, whatever its slot is for, and a copy of one does
not, so the maps record what they should exactly if no live register holds a copy of the address of
a stack object, or the slot of a monitor (`buildOopMaps_described_iff`). The pass gets to the end,
with the fuel that it has, if the names of the registers are legal and no derived pointer is without
its base (`FlowGraph.buildOopMaps_isSome_of_legal`).
-/

namespace StackAllocation

open Dataflow

variable {VMReg : Type}

namespace FlowGraph

variable (G : FlowGraph VMReg)

/-- The address of a stack object: its `BoxLock`, or a copy of it. -/
inductive StackAddress : ℕ → Prop
  | boxLock {n slot : ℕ} (h : (G.node n).boxLock = some slot) (hslot : slot ∈ G.stackSlots) :
      StackAddress n
  | copy {n : ℕ} (h : (G.node n).copyIndex ≠ 0)
      (hcopy : StackAddress ((G.node n).input (G.node n).copyIndex)) : StackAddress n

/-- An oop that is not derived, or the address of a stack object. -/
def IsOop (d : ℕ) : Prop := (G.node d).bottomType = .oopPtr 0 ∨ G.StackAddress d

/-- A derived pointer. -/
def IsDerived (d : ℕ) : Prop := ∃ offset, (G.node d).bottomType = .oopPtr offset ∧ offset ≠ 0

/-- The nodes are copies of one. -/
def SameValue (n m : ℕ) : Prop := ∃ k ∈ G.throughCopies n, k ∈ G.throughCopies m

/-- What the oop map of a safepoint should say. -/
structure Described (n : ℕ) (m : List (OopMapValue VMReg)) : Prop where
  /-- no register is recorded twice -/
  once : (m.map (·.reg)).Nodup
  /-- nor are both halves of an oop -/
  lowHalf : ∀ e ∈ m, e.type = .oopValue ∨ e.type = .derivedOopValue →
    ∃ r : G.Reg, r.val % 2 = 0 ∧ e.reg = G.asVMReg (some r)
  oop : ∀ r d, G.LiveAt n r → G.ReachingDef n r d → r.val % 2 = 0 →
    (⟨G.asVMReg (some r), .oopValue, G.asVMReg none⟩ ∈ m ↔ G.IsOop d ∧ G.isArgument n d = false)
  narrow : ∀ r d, G.LiveAt n r → G.ReachingDef n r d →
    (⟨G.asVMReg (some r), .narrowoopValue, G.asVMReg none⟩ ∈ m ↔
      (G.node d).bottomType = .narrowOop ∧ G.isArgument n d = false)
  derived : ∀ r d, G.LiveAt n r → G.ReachingDef n r d → r.val % 2 = 0 → G.IsDerived d →
    ∃ i ∈ G.derivedInputs n, G.SameValue ((G.node n).input i) d ∧
      ∃ breg, (G.node ((G.node n).input (i + 1))).first = some breg ∧
        ⟨G.asVMReg (some r), .derivedOopValue, G.asVMReg (some breg)⟩ ∈ m ∧
        ⟨G.asVMReg (some breg), .oopValue, G.asVMReg none⟩ ∈ m
  /-- the slot of a monitor is not recorded as anything that the collector updates -/
  monitor : ∀ r d slot, G.LiveAt n r → G.ReachingDef n r d → (G.node d).boxLock = some slot →
    slot ∉ G.stackSlots → ∀ e ∈ m, e.reg = G.asVMReg (some r) → e.type = .calleeSavedValue

/-- What the register allocator promises. -/
structure RegisterAllocated : Prop where
  one_reaching_def : ∀ b r, G.LiveInto b r → ∃ d, ∀ o, G.ReachesBlock b r o → o = some d
  copy_type : ∀ n, (G.node n).copyIndex ≠ 0 →
    (G.node ((G.node n).input (G.node n).copyIndex)).bottomType = (G.node n).bottomType
  boxLock : ∀ n slot, (G.node n).boxLock = some slot → (G.node n).bottomType = .rawPtr ∧
    (G.node n).copyIndex = 0 ∧ (slot ∈ G.stackSlots → G.doStackAllocation = true)
  /-- The base of a derived pointer is an oop that is kept for the safepoint, in an even register
  apart from those of the arguments. -/
  base : ∀ n, ∀ i ∈ G.derivedInputs n, i + 1 < (G.node n).req ∧
    G.IsOop ((G.node n).input (i + 1)) ∧ G.isArgument n ((G.node n).input (i + 1)) = false ∧
    ∃ r, (G.node ((G.node n).input (i + 1))).first = some r ∧ r.val % 2 = 0 ∧
      ∀ d, G.ReachingDef n r d → d = (G.node n).input (i + 1)

/-- What an oop map says of a live register that the node `d` set. -/
inductive Classified (n : ℕ) (reg : G.Reg) (d : ℕ) : List (OopMapValue VMReg) → Prop
  | high (hoop : G.isOopOrDerived d = true) (hodd : reg.val % 2 = 1) : Classified n reg d []
  | argument (hoop : G.isOopOrDerived d = true) (hoff : (G.node d).bottomType.offset = 0)
      (harg : G.isArgument n d = true) : Classified n reg d []
  | oop (hoop : G.isOopOrDerived d = true) (heven : reg.val % 2 = 0)
      (hoff : (G.node d).bottomType.offset = 0) (harg : G.isArgument n d = false) :
      Classified n reg d [⟨G.asVMReg (some reg), .oopValue, G.asVMReg none⟩]
  | derived {i : ℕ} {breg : G.Reg} (hoop : G.isOopOrDerived d = true) (heven : reg.val % 2 = 0)
      (hoff : (G.node d).bottomType.offset ≠ 0) (hi : i ∈ G.derivedInputs n)
      (hsame : G.SameValue ((G.node n).input i) d)
      (hbreg : (G.node ((G.node n).input (i + 1))).first = some breg) :
      Classified n reg d [⟨G.asVMReg (some reg), .derivedOopValue, G.asVMReg (some breg)⟩]
  | narrowArgument (htype : (G.node d).bottomType = .narrowOop)
      (harg : G.isArgument n d = true) : Classified n reg d []
  | narrow (htype : (G.node d).bottomType = .narrowOop) (harg : G.isArgument n d = false) :
      Classified n reg d [⟨G.asVMReg (some reg), .narrowoopValue, G.asVMReg none⟩]
  | callee (hoop : G.isOopOrDerived d = false) (htype : (G.node d).bottomType ≠ .narrowOop)
      (callee : Option G.Reg) :
      Classified n reg d [⟨G.asVMReg (some reg), .calleeSavedValue, G.asVMReg callee⟩]
  | other (hoop : G.isOopOrDerived d = false) (htype : (G.node d).bottomType ≠ .narrowOop) :
      Classified n reg d []

/-- The part of an oop map that is about one register. -/
inductive Entry (n : ℕ) (reg : G.Reg) : List (OopMapValue VMReg) → Prop
  | dead (h : ¬ G.LiveAt n reg) : Entry n reg []
  | live {d : ℕ} {es : List (OopMapValue VMReg)} (hlive : G.LiveAt n reg)
      (hd : G.ReachingDef n reg d) (honly : ∀ d', G.ReachingDef n reg d' → d' = d)
      (hes : G.Classified n reg d es) : Entry n reg es

variable {G}

/-! ## The loop of `build_oop_map`

The loop looks at each live register and adds what its value gives rise to. A derived pointer may
bring in its base, which is live as an input of the safepoint; else an entry is of the register the
loop is at. -/

/-- A node is seen through no copies as well. -/
theorem self_mem_throughCopies (n : ℕ) : n ∈ G.throughCopies n := by
  rw [throughCopies]
  cases G.copies n with
  | zero => exact List.mem_singleton.2 rfl
  | succ k =>
    rw [copyChain]
    split
    · exact List.mem_singleton.2 rfl
    · exact List.mem_cons_self

/-- What is found among the inputs is the derived pointer, or a copy. -/
theorem findDerived_eq_some {n d i : ℕ} (h : G.findDerived n d = some i) :
    i ∈ G.derivedInputs n ∧ G.SameValue ((G.node n).input i) d := by
  rw [findDerived] at h
  split at h
  · next j hj =>
    obtain rfl := Option.some.inj h
    have heq : (G.node n).input j = d := by simpa using List.find?_some hj
    exact ⟨List.mem_of_find?_eq_some hj, d, heq ▸ self_mem_throughCopies _,
      self_mem_throughCopies d⟩
  · refine ⟨List.mem_of_find?_eq_some h, ?_⟩
    have hany : ((G.throughCopies ((G.node n).input i)).any fun m =>
        decide (m ∈ G.throughCopies d)) = true := by simpa only using List.find?_some h
    obtain ⟨k, hk, hkd⟩ := List.any_eq_true.1 hany
    exact ⟨k, hk, of_decide_eq_true hkd⟩

end FlowGraph

variable {G : FlowGraph VMReg} {n : ℕ} {live : Finset G.Reg}

/-- The bases of the derived pointers are live. -/
def BasesLive (G : FlowGraph VMReg) (n : ℕ) (live : Finset G.Reg) : Prop :=
  ∀ i ∈ G.derivedInputs n, ∀ r, (G.node ((G.node n).input (i + 1))).first = some r → r ∈ live

/-- A derived pointer that is recorded: its base is live and in a register. -/
theorem OopMapState.derived_eq_some {s s' : OopMapState G} {d : ℕ} {reg : G.Reg}
    (hbase : BasesLive G n s.live) (h : s.derived n d reg = some s') :
    ∃ i breg, i ∈ G.derivedInputs n ∧ G.SameValue ((G.node n).input i) d ∧
      (G.node ((G.node n).input (i + 1))).first = some breg ∧
      s' = s.set reg .derivedOopValue (some breg) := by
  rw [OopMapState.derived] at h
  split at h
  · cases h
  · next i hi =>
    obtain ⟨hmem, hsame⟩ := FlowGraph.findDerived_eq_some hi
    split at h
    · cases h
    · next breg hbreg =>
      obtain rfl := Option.some.inj h
      refine ⟨i, breg, hmem, hsame, hbreg, ?_⟩
      rw [OopMapState.addBase, if_pos (hbase i hmem breg hbreg)]

namespace OopFlow

/-- A register of the loop. -/
theorem classify_eq_some {f : OopFlow G} {s s' : OopMapState G} {reg : G.Reg}
    (hbase : BasesLive G n s.live) (h : f.classify n s reg = some s') :
    ∃ es, s' = { s with map := s.map ++ es } ∧
      (reg ∉ s.live ∧ es = [] ∨
        reg ∈ s.live ∧ ∃ d, f.defs (some reg) = some d ∧ G.Classified n reg d es) := by
  rw [classify] at h
  split at h
  · next hdead =>
    obtain rfl := Option.some.inj h
    exact ⟨[], by rw [List.append_nil], .inl ⟨hdead, rfl⟩⟩
  · next hlive =>
    replace hlive := not_not.1 hlive
    split at h
    · cases h
    · next d hd =>
      suffices hes : ∃ es, s' = { s with map := s.map ++ es } ∧ G.Classified n reg d es by
        obtain ⟨es, heq, hes⟩ := hes
        exact ⟨es, heq, .inr ⟨hlive, d, hd, hes⟩⟩
      have hnone : s = { s with map := s.map ++ [] } := by rw [List.append_nil]
      split at h
      · next hoop =>
        rw [OopMapState.oopOrDerived] at h
        split at h
        · next hodd => exact ⟨[], Option.some.inj h ▸ hnone, .high hoop hodd⟩
        · next hodd =>
          replace hodd : reg.val % 2 = 0 := by omega
          split at h
          · cases h
          · split at h
            · next hoff =>
              split at h
              · next harg => exact ⟨[], Option.some.inj h ▸ hnone, .argument hoop hoff harg⟩
              · next harg =>
                exact ⟨_, (Option.some.inj h).symm, .oop hoop hodd hoff (Bool.not_eq_true _ ▸ harg)⟩
            · next hoff =>
              obtain ⟨i, breg, hmem, hsame, hbreg, rfl⟩ := OopMapState.derived_eq_some hbase h
              exact ⟨_, rfl, .derived hoop hodd hoff hmem hsame hbreg⟩
      · next hoop =>
        replace hoop := Bool.not_eq_true _ ▸ hoop
        split at h
        · next htype =>
          rw [OopMapState.narrowOop] at h
          split at h
          · cases h
          · split at h
            · next harg => exact ⟨[], Option.some.inj h ▸ hnone, .narrowArgument htype harg⟩
            · next harg =>
              exact ⟨_, (Option.some.inj h).symm, .narrow htype (Bool.not_eq_true _ ▸ harg)⟩
        · next htype =>
          split at h
          · exact ⟨[], Option.some.inj h ▸ hnone, .other hoop htype⟩
          · next callee _ =>
            exact ⟨_, (Option.some.inj h).symm, .callee hoop htype (some callee)⟩

/-- What the loop over the registers adds to the map, register by register. -/
theorem foldlM_classify {f : OopFlow G} {l : List G.Reg} {s s' : OopMapState G}
    (hbase : BasesLive G n s.live) (h : l.foldlM (f.classify n) s = some s') :
    ∃ L, s'.map = s.map ++ List.flatten L ∧ List.Forall₂ (fun reg es =>
      reg ∉ s.live ∧ es = [] ∨
        reg ∈ s.live ∧ ∃ d, f.defs (some reg) = some d ∧ G.Classified n reg d es) l L := by
  induction l generalizing s with
  | nil =>
    obtain rfl := Option.some.inj h
    exact ⟨[], (List.append_nil _).symm, .nil⟩
  | cons reg l ih =>
    rw [List.foldlM_cons] at h
    obtain ⟨t, ht, hrest⟩ := Option.bind_eq_some_iff.1 h
    obtain ⟨es, rfl, hes⟩ := classify_eq_some hbase ht
    have hbase' : BasesLive G n ({ s with map := s.map ++ es } : OopMapState G).live := hbase
    obtain ⟨L, hL, hall⟩ := ih hbase' hrest
    exact ⟨es :: L, hL.trans (List.append_assoc ..), .cons hes hall⟩

/-- The bases of the derived pointers are live, being inputs. -/
theorem liveAt_base (hr : G.RegisterAllocated) {b : G.Block} (hn : n ∈ G.nodes b) {i : ℕ}
    (hi : i ∈ G.derivedInputs n) {r : G.Reg}
    (hfirst : (G.node ((G.node n).input (i + 1))).first = some r) : G.LiveAt n r := by
  obtain ⟨pre, post, hb⟩ := List.append_of_mem hn
  refine ⟨b, pre, post, hb, .inl (exposed_cons.2 (.inl ?_))⟩
  refine Finset.mem_union_left _ (Finset.mem_biUnion.2 ⟨i + 1, ?_, ?_⟩)
  · exact Finset.mem_Ico.2 ⟨Nat.le_add_left 1 i, (hr.base n i hi).1⟩
  · exact Finset.mem_union_left _ (Option.mem_toFinset.2 hfirst)

/-- What a map says, of all the registers. -/
theorem Built.entries {safehash : G.Safehash} {b : G.Block} {m : List (OopMapValue VMReg)}
    (hr : G.RegisterAllocated)
    (hsafe : ∀ live, safehash n = some live → ∀ r, r ∈ live ↔ G.LiveAt n r)
    (h : Built safehash b n m) :
    ∃ L, m = List.flatten L ∧ List.Forall₂ (G.Entry n) (List.finRange G.maxReg) L := by
  obtain ⟨f, pre, post, live, hb, hneeds, hfollows, hlive, hm⟩ := h
  have hiff := hsafe live hlive
  have hbase : BasesLive G n live := fun i hi r hfirst => (hiff r).2
    (liveAt_base hr (hb ▸ List.mem_append_right pre List.mem_cons_self) hi hfirst)
  obtain ⟨s, hs, rfl⟩ := Option.map_eq_some_iff.1 hm
  obtain ⟨L, hL, hall⟩ := foldlM_classify hbase hs
  refine ⟨L, hL, hall.imp fun reg es hes => ?_⟩
  obtain ⟨hdead, rfl⟩ | ⟨hmem, d, hd, hes⟩ := hes
  · exact .dead fun hliveAt => hdead ((hiff reg).2 hliveAt)
  have hliveAt := (hiff reg).1 hmem
  obtain ⟨c, pre', post', hc, habove⟩ := hliveAt
  obtain rfl : c = b := FlowGraph.block_unique
    (hc ▸ List.mem_append_right pre' List.mem_cons_self)
    (hb ▸ List.mem_append_right pre List.mem_cons_self)
  obtain ⟨rfl, rfl⟩ := FlowGraph.split_unique (FlowGraph.nodup_nodes c) hc hb
  obtain ⟨e, he⟩ := exists_lastDef_eq hr.one_reaching_def hc habove
  obtain ⟨o, ho, heq⟩ := hfollows reg
  obtain rfl : d = e := Option.some.inj (hd.symm.trans (heq.trans (he o ho)))
  refine .live ⟨c, pre', post', hc, habove⟩ ⟨c, pre', post', o, hc, ho, he o ho⟩ ?_ hes
  rintro d' ⟨c', pre'', post'', o', hc', ho', hd'⟩
  obtain rfl : c' = c := FlowGraph.block_unique
    (hc' ▸ List.mem_append_right pre'' List.mem_cons_self)
    (hc ▸ List.mem_append_right pre' List.mem_cons_self)
  obtain ⟨rfl, rfl⟩ := FlowGraph.split_unique (FlowGraph.nodup_nodes c') hc' hc
  exact Option.some.inj (hd'.symm.trans (he o' ho'))

end OopFlow

/-! ## What an oop map should say

A live register has one node that set it, so the map can be compared with the values: an oop is
recorded if there is one, a derived pointer with its base, and nothing twice. The two agree for all
values but the addresses of stack objects and of the slots of monitors. -/

namespace FlowGraph

/-- All entries that a value gives rise to are of its register. -/
theorem Classified.reg_eq {reg : G.Reg} {d : ℕ} {es : List (OopMapValue VMReg)}
    (h : G.Classified n reg d es) :
    (es.map (·.reg)).Nodup ∧ ∀ e ∈ es, e.reg = G.asVMReg (some reg) := by
  cases h <;> simp

/-- So no two of them are for one register. -/
theorem Entry.reg_eq {reg : G.Reg} {es : List (OopMapValue VMReg)} (h : G.Entry n reg es) :
    (es.map (·.reg)).Nodup ∧ ∀ e ∈ es, e.reg = G.asVMReg (some reg) := by
  cases h with
  | dead => exact ⟨List.nodup_nil, fun _ he => absurd he List.not_mem_nil⟩
  | live _ _ _ hes => exact hes.reg_eq

section Entries

variable {m : List (OopMapValue VMReg)} {l : List G.Reg} {L : List (List (OopMapValue VMReg))}

/-- The registers of the entries, for registers that are not looked at twice. -/
theorem nodup_of_entries (h : List.Forall₂ (G.Entry n) l L) (hnodup : l.Nodup) :
    (L.flatten.map (·.reg)).Nodup ∧
      ∀ e ∈ L.flatten, ∃ reg ∈ l, e.reg = G.asVMReg (some reg) := by
  induction h with
  | nil => exact ⟨List.nodup_nil, fun _ he => absurd he List.not_mem_nil⟩
  | @cons reg es l L hes hall ih =>
    obtain ⟨hreg, hnodup⟩ := List.nodup_cons.1 hnodup
    obtain ⟨hL, hmem⟩ := ih hnodup
    obtain ⟨hes, heq⟩ := hes.reg_eq
    rw [List.flatten_cons, List.map_append]
    refine ⟨List.nodup_append'.2 ⟨hes, hL, ?_⟩, fun e he => ?_⟩
    · rintro x hx hx'
      obtain ⟨e, he, rfl⟩ := List.mem_map.1 hx
      obtain ⟨e', he', heq'⟩ := List.mem_map.1 hx'
      obtain ⟨reg', hreg', hreg''⟩ := hmem e' he'
      have hsame := G.asVMReg_inj _ _ ((hreg''.symm.trans heq').trans (heq e he))
      obtain rfl := Option.some.inj hsame
      exact hreg hreg'
    · obtain he | he := List.mem_append.1 he
      · exact ⟨reg, List.mem_cons_self, heq e he⟩
      · obtain ⟨reg', hreg', h⟩ := hmem e he
        exact ⟨reg', List.mem_cons_of_mem reg hreg', h⟩

/-- An entry comes from the register that it is about. -/
theorem entry_of_mem (h : List.Forall₂ (G.Entry n) l L) {e : OopMapValue VMReg}
    (he : e ∈ L.flatten) : ∃ reg es, G.Entry n reg es ∧ e ∈ es := by
  induction h with
  | nil => exact absurd he List.not_mem_nil
  | @cons reg es l L hes hall ih =>
    obtain he | he := List.mem_append.1 he
    · exact ⟨reg, es, hes, he⟩
    · exact ih he

/-- What is said of a register is in the map. -/
theorem mem_of_entry (h : List.Forall₂ (G.Entry n) l L) {reg : G.Reg} (hreg : reg ∈ l) :
    ∃ es, G.Entry n reg es ∧ ∀ e ∈ es, e ∈ L.flatten := by
  induction h with
  | nil => exact absurd hreg List.not_mem_nil
  | @cons reg' es l L hes hall ih =>
    obtain rfl | hreg := List.mem_cons.1 hreg
    · exact ⟨es, hes, fun e he => List.mem_append_left _ he⟩
    · obtain ⟨es', hes', hmem⟩ := ih hreg
      exact ⟨es', hes', fun e he => List.mem_append_right _ (hmem e he)⟩

end Entries

/-- What is known of the entries for a live register. -/
structure Entries (G : FlowGraph VMReg) (n : ℕ) (m : List (OopMapValue VMReg)) : Prop where
  once : (m.map (·.reg)).Nodup
  of_mem : ∀ e ∈ m, ∃ reg d es, G.LiveAt n reg ∧ G.ReachingDef n reg d ∧
    (∀ d', G.ReachingDef n reg d' → d' = d) ∧ G.Classified n reg d es ∧ e ∈ es
  mem : ∀ reg d, G.LiveAt n reg → G.ReachingDef n reg d →
    ∃ es, G.Classified n reg d es ∧ ∀ e ∈ es, e ∈ m

/-- A map that was built has, for each live register, the entries that its value gives rise to. -/
theorem entries_of_built {safehash : G.Safehash} {b : G.Block} {m : List (OopMapValue VMReg)}
    (hr : G.RegisterAllocated)
    (hsafe : ∀ live, safehash n = some live → ∀ r, r ∈ live ↔ G.LiveAt n r)
    (h : OopFlow.Built safehash b n m) : Entries G n m := by
  obtain ⟨L, rfl, hall⟩ := h.entries hr hsafe
  refine ⟨(nodup_of_entries hall (List.nodup_finRange _)).1, fun e he => ?_,
    fun reg d hlive hd => ?_⟩
  · obtain ⟨reg, es, hes, he⟩ := entry_of_mem hall he
    cases hes with
    | dead => exact absurd he List.not_mem_nil
    | live hlive hd honly hes => exact ⟨reg, _, es, hlive, hd, honly, hes, he⟩
  · obtain ⟨es, hes, hmem⟩ := mem_of_entry hall (List.mem_finRange reg)
    cases hes with
    | dead hdead => exact absurd hlive hdead
    | live _ _ honly hes =>
      obtain rfl := honly d hd
      exact ⟨es, hes, hmem⟩

section Described

variable {m : List (OopMapValue VMReg)} {r : G.Reg} {d : ℕ}

/-- An entry for a register is there because of the node that set it. -/
theorem Entries.classified (hE : Entries G n m) (hd : G.ReachingDef n r d)
    {e : OopMapValue VMReg} (he : e ∈ m) (hreg : e.reg = G.asVMReg (some r)) :
    ∃ es, G.Classified n r d es ∧ e ∈ es := by
  obtain ⟨reg, d', es, -, -, honly, hes, hmem⟩ := hE.of_mem e he
  have hsame := G.asVMReg_inj _ _ ((hes.reg_eq.2 e hmem).symm.trans hreg)
  obtain rfl := Option.some.inj hsame
  obtain rfl := honly d hd
  exact ⟨es, hes, hmem⟩

/-- A register is an oop in the map if the value that reaches it is one, is no derived pointer and
no argument. -/
theorem Entries.oop_mem_iff (hE : Entries G n m) (hlive : G.LiveAt n r)
    (hd : G.ReachingDef n r d) (heven : r.val % 2 = 0) :
    ⟨G.asVMReg (some r), .oopValue, G.asVMReg none⟩ ∈ m ↔
      (G.isOopOrDerived d = true ∧ (G.node d).bottomType.offset = 0) ∧
        G.isArgument n d = false := by
  constructor
  · intro he
    obtain ⟨es, hes, hmem⟩ := hE.classified hd he rfl
    cases hes with
    | oop hoop _ hoff harg => exact ⟨⟨hoop, hoff⟩, harg⟩
    | _ => simp at hmem
  · rintro ⟨⟨hoop, hoff⟩, harg⟩
    obtain ⟨es, hes, hmem⟩ := hE.mem r d hlive hd
    cases hes with
    | oop => exact hmem _ (List.mem_singleton.2 rfl)
    | high _ hodd => omega
    | argument _ _ harg' => exact absurd (harg.symm.trans harg') Bool.false_ne_true
    | derived _ _ hoff' => exact absurd hoff hoff'
    | narrow htype | narrowArgument htype =>
      rw [isOopOrDerived, htype] at hoop
      exact absurd hoop Bool.false_ne_true
    | callee hno | other hno => exact absurd (hno.symm.trans hoop) Bool.false_ne_true

/-- And a narrow oop if the value is a narrow one. -/
theorem Entries.narrow_mem_iff (hE : Entries G n m) (hlive : G.LiveAt n r)
    (hd : G.ReachingDef n r d) :
    ⟨G.asVMReg (some r), .narrowoopValue, G.asVMReg none⟩ ∈ m ↔
      (G.node d).bottomType = .narrowOop ∧ G.isArgument n d = false := by
  have hno : (G.node d).bottomType = .narrowOop → G.isOopOrDerived d = false := by
    intro htype
    rw [isOopOrDerived, htype]
  constructor
  · intro he
    obtain ⟨es, hes, hmem⟩ := hE.classified hd he rfl
    cases hes with
    | narrow htype harg => exact ⟨htype, harg⟩
    | _ => simp at hmem
  · rintro ⟨htype, harg⟩
    obtain ⟨es, hes, hmem⟩ := hE.mem r d hlive hd
    cases hes with
    | narrow => exact hmem _ (List.mem_singleton.2 rfl)
    | narrowArgument _ harg' => exact absurd (harg.symm.trans harg') Bool.false_ne_true
    | high hoop | argument hoop | oop hoop | derived hoop =>
      exact absurd ((hno htype).symm.trans hoop) Bool.false_ne_true
    | callee _ htype' | other _ htype' => exact absurd htype htype'

/-- The upper half of a pair of registers is never in the map. -/
theorem Entries.lowHalf (hE : Entries G n m) (e : OopMapValue VMReg) (he : e ∈ m)
    (htype : e.type = .oopValue ∨ e.type = .derivedOopValue) :
    ∃ r : G.Reg, r.val % 2 = 0 ∧ e.reg = G.asVMReg (some r) := by
  obtain ⟨reg, d, es, -, -, -, hes, hmem⟩ := hE.of_mem e he
  refine ⟨reg, ?_, hes.reg_eq.2 e hmem⟩
  cases hes with
  | oop _ heven | derived _ heven => exact heven
  | high | argument | narrowArgument | other => exact absurd hmem List.not_mem_nil
  | narrow | callee =>
    obtain rfl := List.mem_singleton.1 hmem
    exact htype.elim nofun nofun

variable (G) in
/-- If it is the slot of a `BoxLock` that is taken for a stack oop, it is an object's; if it is the
address of a stack object, it is the `BoxLock` itself. -/
def Recognised (d : ℕ) : Prop :=
  (∀ slot, (G.node d).boxLock = some slot → G.doStackAllocation = true → slot ∈ G.stackSlots) ∧
    (G.StackAddress d → (G.node d).boxLock.isSome)

section RegisterAllocated

variable (hr : G.RegisterAllocated)
include hr

/-- The address of a stack object is a raw pointer. -/
theorem StackAddress.rawPtr (h : G.StackAddress d) :
    (G.node d).bottomType = .rawPtr ∧ G.doStackAllocation = true := by
  induction h with
  | boxLock h hslot =>
    obtain ⟨htype, -, hdo⟩ := hr.boxLock _ _ h
    exact ⟨htype, hdo hslot⟩
  | copy h hcopy ih => exact ⟨(hr.copy_type _ h).symm.trans ih.1, ih.2⟩

/-- A stack oop is recognised if it is a `BoxLock`, and a `BoxLock` is if it is a stack oop. -/
theorem isOop_iff (hrec : G.Recognised d) :
    G.isOopOrDerived d = true ∧ (G.node d).bottomType.offset = 0 ↔ G.IsOop d := by
  rw [isOopOrDerived, IsOop]
  constructor
  · rintro ⟨hoop, hoff⟩
    cases htype : (G.node d).bottomType with
    | oopPtr offset =>
      rw [htype] at hoff
      exact .inl (congrArg DefType.oopPtr hoff)
    | rawPtr =>
      rw [htype] at hoop
      obtain ⟨hdo, hbox⟩ := (Bool.and_eq_true _ _).mp hoop
      obtain ⟨slot, hslot⟩ := Option.isSome_iff_exists.1 hbox
      exact .inr (.boxLock hslot (hrec.1 slot hslot hdo))
    | narrowOop | other =>
      rw [htype] at hoop
      exact absurd hoop Bool.false_ne_true
  · rintro (htype | haddr)
    · rw [htype]
      exact ⟨rfl, rfl⟩
    · obtain ⟨htype, hdo⟩ := haddr.rawPtr hr
      rw [htype]
      refine ⟨?_, rfl⟩
      dsimp only
      rw [hdo, hrec.2 haddr]
      rfl

/-- A monitor's slot is no stack object. -/
theorem not_isOop_of_monitor {slot : ℕ} (h : (G.node d).boxLock = some slot)
    (hslot : slot ∉ G.stackSlots) : ¬ G.IsOop d := by
  obtain ⟨htype, hcopy, -⟩ := hr.boxLock d slot h
  rintro (htype' | haddr)
  · rw [htype] at htype'
    cases htype'
  · cases haddr with
    | boxLock h' hslot' =>
      obtain rfl := Option.some.inj (h.symm.trans h')
      exact hslot hslot'
    | copy hcopy' => exact hcopy' hcopy

omit hr in
/-- Something, or nothing, set a register on the way to a block. -/
theorem exists_reachesBlock {b : G.Block} (hpath : Relation.ReflTransGen G.Flow G.entryBlock b)
    (r : G.Reg) : ∃ o, G.ReachesBlock b r o := by
  induction hpath with
  | refl => exact ⟨none, .entry r⟩
  | tail _ hstep ih =>
    obtain ⟨o, ho⟩ := ih
    exact ⟨_, .step ho hstep.1 hstep.2⟩

/-- What is live is set by one node. -/
theorem exists_reachingDef {b : G.Block} (hpath : Relation.ReflTransGen G.Flow G.entryBlock b)
    (hn : n ∈ G.nodes b) (hlive : G.LiveAt n r) : ∃ d, G.ReachingDef n r d := by
  obtain ⟨o, ho⟩ := exists_reachesBlock hpath r
  obtain ⟨c, pre, post, hc, habove⟩ := hlive
  obtain rfl : c = b := block_unique (hc ▸ List.mem_append_right pre List.mem_cons_self) hn
  obtain ⟨d, hd⟩ := exists_lastDef_eq hr.one_reaching_def hc habove
  exact ⟨d, c, pre, post, o, hc, ho, hd o ho⟩

/-- What the map should say, if the stack oops are recognised. -/
theorem Entries.described (hE : Entries G n m) {b : G.Block}
    (hpath : Relation.ReflTransGen G.Flow G.entryBlock b) (hn : n ∈ G.nodes b)
    (hrec : ∀ r d, G.LiveAt n r → G.ReachingDef n r d → r.val % 2 = 0 →
      G.isArgument n d = false → G.Recognised d) : G.Described n m := by
  have hoopIff : ∀ r d, G.LiveAt n r → G.ReachingDef n r d → r.val % 2 = 0 →
      (⟨G.asVMReg (some r), .oopValue, G.asVMReg none⟩ ∈ m ↔
        G.IsOop d ∧ G.isArgument n d = false) := by
    intro r d hlive hd heven
    rw [hE.oop_mem_iff hlive hd heven]
    exact and_congr_left fun harg => isOop_iff hr (hrec r d hlive hd heven harg)
  refine ⟨hE.once, hE.lowHalf, hoopIff, fun r d hlive hd => hE.narrow_mem_iff hlive hd,
    fun r d hlive hd heven hder => ?_, fun r d slot hlive hd hbox hslot e he hreg => ?_⟩
  · obtain ⟨offset, htype, hne⟩ := hder
    have hoop : G.isOopOrDerived d = true := by rw [isOopOrDerived, htype]
    have hoff : (G.node d).bottomType.offset ≠ 0 := by rwa [htype]
    obtain ⟨es, hes, hmem⟩ := hE.mem r d hlive hd
    cases hes with
    | @derived i breg _ _ _ hi hsame hbreg =>
      refine ⟨i, hi, hsame, breg, hbreg, hmem _ (List.mem_singleton.2 rfl), ?_⟩
      obtain ⟨-, hbase, harg, r', hr', heven', honly⟩ := hr.base n i hi
      obtain rfl := Option.some.inj (hr'.symm.trans hbreg)
      have hlive' := OopFlow.liveAt_base hr hn hi hr'
      obtain ⟨d', hd'⟩ := exists_reachingDef hr hpath hn hlive'
      obtain rfl := honly d' hd'
      exact (hoopIff r' _ hlive' hd' heven').2 ⟨hbase, harg⟩
    | high _ hodd => omega
    | argument _ hoff' | oop _ _ hoff' => exact absurd hoff' hoff
    | narrow htype' | narrowArgument htype' =>
      rw [htype] at htype'
      cases htype'
    | callee hno | other hno => exact absurd (hno.symm.trans hoop) Bool.false_ne_true
  · obtain ⟨htype, -, -⟩ := hr.boxLock d slot hbox
    obtain ⟨es, hes, hmem⟩ := hE.classified hd he hreg
    cases hes with
    | high | argument | narrowArgument | other => exact absurd hmem List.not_mem_nil
    | callee => exact List.mem_singleton.1 hmem ▸ rfl
    | oop hoop heven hoff harg =>
      exact absurd ((isOop_iff hr (hrec r d hlive hd heven harg)).1 ⟨hoop, hoff⟩)
        (not_isOop_of_monitor hr hbox hslot)
    | derived _ _ hoff =>
      rw [htype] at hoff
      exact absurd rfl hoff
    | narrow htype' =>
      rw [htype] at htype'
      cases htype'

/-- And only then. -/
theorem Entries.recognised (hE : Entries G n m) (h : G.Described n m) (hlive : G.LiveAt n r)
    (hd : G.ReachingDef n r d) (heven : r.val % 2 = 0) (harg : G.isArgument n d = false) :
    G.Recognised d := by
  have hiff := (hE.oop_mem_iff hlive hd heven).symm.trans (h.oop r d hlive hd heven)
  rw [harg] at hiff
  simp only [and_true] at hiff
  refine ⟨fun slot hslot hdo => ?_, fun haddr => ?_⟩
  · by_contra hno
    have htype := (hr.boxLock d slot hslot).1
    refine not_isOop_of_monitor hr hslot hno (hiff.1 ?_)
    rw [isOopOrDerived, htype]
    refine ⟨?_, rfl⟩
    dsimp only
    rw [hdo, hslot]
    rfl
  · have hoop := (hiff.2 (.inr haddr)).1
    rw [isOopOrDerived, (haddr.rawPtr hr).1] at hoop
    exact ((Bool.and_eq_true _ _).mp hoop).2

end RegisterAllocated

end Described

/-- Nothing in the root block needs a map. -/
theorem Scheduled.ne_root (hG : G.Scheduled) {b : G.Block} (hn : n ∈ G.nodes b)
    (hneeds : OopFlow.needsMap G n = true) : b ≠ G.rootBlock ∧ (G.node n).jvms.isSome := by
  rw [OopFlow.needsMap, Bool.and_eq_true, Bool.and_eq_true] at hneeds
  refine ⟨?_, hneeds.1.1⟩
  rintro rfl
  have hjvms := hneeds.1.1
  rw [(hG.root_nodes n hn).2] at hjvms
  exact absurd hjvms Bool.false_ne_true

/-- Nothing is live into the entry, since nothing was set before it. -/
theorem RegisterAllocated.not_liveInto_entry (hr : G.RegisterAllocated) (r : G.Reg) :
    ¬ G.LiveInto G.entryBlock r := by
  intro hlive
  obtain ⟨d, hd⟩ := hr.one_reaching_def _ r hlive
  exact absurd (hd none (.entry r)) (Option.some_ne_none d).symm

/-- The oop maps say what they should exactly if no live register holds a copy of the address of
a stack object or, while stack oops are recorded, the slot of a monitor, apart from the outgoing
arguments. -/
theorem buildOopMaps_described_iff (hG : G.Scheduled) (hr : G.RegisterAllocated)
    {maps : List (ℕ × List (OopMapValue VMReg))} (h : G.buildOopMaps = some maps) :
    (∀ b, ∀ n ∈ G.nodes b, OopFlow.needsMap G n = true →
      ∃ m, (n, m) ∈ maps ∧ G.Described n m) ↔
    ∀ b, ∀ n ∈ G.nodes b, OopFlow.needsMap G n = true →
      ∀ r d, G.LiveAt n r → G.ReachingDef n r d → r.val % 2 = 0 → G.isArgument n d = false →
        G.Recognised d := by
  obtain ⟨safehash, hsafe, hlive⟩ := mem_safehash_iff hG hr.not_liveInto_entry
  obtain ⟨hbuilt, hmaps⟩ := buildOopMaps_eq_some hG hsafe h
  have hentries : ∀ b, ∀ n ∈ G.nodes b, OopFlow.needsMap G n = true →
      ∀ m, (n, m) ∈ maps → Entries G n m := by
    intro b n hn hneeds m hm
    obtain ⟨hroot, hjvms⟩ := hG.ne_root hn hneeds
    obtain ⟨c, hc⟩ := hbuilt n m hm
    refine entries_of_built hr (fun live hlive' => ?_) hc
    obtain ⟨live', heq, hiff⟩ := hlive b n hn hroot hjvms
    obtain rfl := Option.some.inj (heq.symm.trans hlive')
    exact hiff
  constructor
  · intro hdesc b n hn hneeds r d hliveAt hd heven harg
    obtain ⟨m, hm, hdescribed⟩ := hdesc b n hn hneeds
    exact (hentries b n hn hneeds m hm).recognised hr hdescribed hliveAt hd heven harg
  · intro hrec b n hn hneeds
    have hroot := (hG.ne_root hn hneeds).1
    obtain ⟨m, hm⟩ := hmaps b hroot n hn hneeds
    exact ⟨m, hm, (hentries b n hn hneeds m hm).described hr (hG.reachable b hroot) hn
      (hrec b n hn hneeds)⟩

end FlowGraph

/-! ## No map is given up

The code gives up if a register has no name or a derived pointer no base. Where both are there every
map is built. -/

namespace OopFlow

/-- A register is classified, if its name is legal and its base is found. -/
theorem classify_isSome {f : OopFlow G} {s : OopMapState G} {reg : G.Reg}
    (hbase : ∀ i ∈ G.derivedInputs n, (G.node ((G.node n).input (i + 1))).first.isSome)
    (hlegal : ∀ r, G.legalVMRegName r = true)
    (hdefs : reg ∈ s.live → ∃ d, f.defs (some reg) = some d ∧
      (G.IsDerived d → (G.findDerived n d).isSome)) : (f.classify n s reg).isSome := by
  rw [classify]
  split
  · rfl
  · next hlive =>
    obtain ⟨d, hd, hfind⟩ := hdefs (not_not.1 hlive)
    rw [hd]
    dsimp only
    split
    · next hoop =>
      rw [OopMapState.oopOrDerived, hlegal]
      split
      · rfl
      · rw [if_neg (by simp)]
        split
        · split <;> rfl
        · next hoff =>
          have hder : G.IsDerived d := by
            cases htype : (G.node d).bottomType with
            | oopPtr offset =>
              rw [htype] at hoff
              exact ⟨offset, htype, hoff⟩
            | rawPtr | narrowOop | other =>
              rw [htype] at hoff
              exact absurd rfl hoff
          obtain ⟨i, hi⟩ := Option.isSome_iff_exists.1 (hfind hder)
          obtain ⟨breg, hbreg⟩ := Option.isSome_iff_exists.1
            (hbase i (FlowGraph.findDerived_eq_some hi).1)
          rw [OopMapState.derived, hi]
          dsimp only
          rw [hbreg]
          rfl
    · split
      · rw [OopMapState.narrowOop, hlegal, if_neg (by simp)]
        split <;> rfl
      · split <;> rfl

/-- No register makes the building give up, if all of them have legal names and the bases of derived
pointers are in registers. -/
theorem foldlM_classify_isSome {f : OopFlow G} {l : List G.Reg} {s : OopMapState G}
    (hbase : BasesLive G n s.live)
    (hbase' : ∀ i ∈ G.derivedInputs n, (G.node ((G.node n).input (i + 1))).first.isSome)
    (hlegal : ∀ r, G.legalVMRegName r = true)
    (hdefs : ∀ reg ∈ s.live, ∃ d, f.defs (some reg) = some d ∧
      (G.IsDerived d → (G.findDerived n d).isSome)) : (l.foldlM (f.classify n) s).isSome := by
  induction l generalizing s with
  | nil => rfl
  | cons reg l ih =>
    obtain ⟨t, ht⟩ := Option.isSome_iff_exists.1 (classify_isSome hbase' hlegal (hdefs reg))
    obtain ⟨es, rfl, -⟩ := classify_eq_some hbase ht
    rw [List.foldlM_cons, ht]
    exact ih hbase hdefs

end OopFlow

/-- The maps are built, if the names of the registers are legal and each derived pointer is an
input of the safepoints that it is live at. -/
theorem FlowGraph.buildOopMaps_isSome_of_legal (hG : G.Scheduled) (hr : G.RegisterAllocated)
    (hlegal : ∀ r, G.legalVMRegName r = true)
    (hpair : ∀ n r d, G.LiveAt n r → G.ReachingDef n r d → G.IsDerived d →
      (G.findDerived n d).isSome) : G.buildOopMaps.isSome := by
  obtain ⟨safehash, hsafe, hlive⟩ := mem_safehash_iff hG hr.not_liveInto_entry
  refine buildOopMaps_isSome hsafe fun b hroot f pre n post hb hfollows => ?_
  have hn : n ∈ G.nodes b := hb ▸ List.mem_append_right pre List.mem_cons_self
  rw [OopFlow.mapAt]
  split
  · next hneeds =>
    obtain ⟨live, hnlive, hiff⟩ := hlive b n hn hroot (hG.ne_root hn hneeds).2
    rw [hnlive]
    dsimp only
    rw [Option.isSome_map, OopFlow.buildOopMap, Option.isSome_map]
    refine OopFlow.foldlM_classify_isSome
      (fun i hi r hfirst => (hiff r).2 (OopFlow.liveAt_base hr hn hi hfirst))
      (fun i hi => ?_) hlegal (fun reg hreg => ?_)
    · obtain ⟨-, -, -, r, hfirst, -⟩ := hr.base n i hi
      exact hfirst ▸ rfl
    · have hliveAt := (hiff reg).1 hreg
      obtain ⟨c, pre', post', hc, habove⟩ := hliveAt
      obtain rfl : c = b := block_unique (hc ▸ List.mem_append_right pre' List.mem_cons_self) hn
      obtain ⟨rfl, rfl⟩ := split_unique (nodup_nodes c) hc hb
      obtain ⟨d, hd⟩ := exists_lastDef_eq hr.one_reaching_def hc habove
      obtain ⟨o, ho, heq⟩ := hfollows reg
      refine ⟨d, heq.trans (hd o ho), hpair n reg d ⟨c, pre', post', hc, habove⟩ ?_⟩
      exact ⟨c, pre', post', o, hc, ho, hd o ho⟩
  · rfl

/-! ## A spilled stack oop

A `BoxLock` is recognised by its operation. A copy of it, as after a spill, is a raw pointer like
any other, so the object in the frame is missing in the map. -/

namespace FlowGraph

/-- A node that does nothing. -/
def blankNode : MachNode (Fin 6) :=
  ⟨none, none, 1, fun _ => 0, none, .other, none, 0, false, false, none, false, false, none⟩

/-- A `BoxLock` of an object, a copy of it in a stack slot if it is spilled, and a call at which
the object is live. -/
def spillNode (spill : Bool) : ℕ → MachNode (Fin 6)
  | 2 => { blankNode with
      first := some 4, second := some 5, bottomType := .rawPtr, isStartProj := true }
  | 3 => { blankNode with
      first := some 0, second := some 1, bottomType := .rawPtr, boxLock := some 7 }
  | 4 => if spill then
      { blankNode with
        first := some 2, second := some 3, bottomType := .rawPtr, copyIndex := 1, req := 2
        input := fun _ => 3 }
    else blankNode
  | 5 =>
    { blankNode with
      req := 2, input := fun _ => if spill then 4 else 3, jvms := some 2
      isMachSafePoint := true, domainCnt := some 5 }
  | 6 => { blankNode with req := 2, input := fun _ => 2 }
  | _ => blankNode

/-- A method of one block. -/
def spillGraph (spill : Bool) : FlowGraph (Option (Fin 6)) where
  maxReg := 6
  last := 0
  node := spillNode spill
  nodes := fun b => if b = 0 then [0] else [1, 2, 3, 4, 5, 6]
  succs := fun b => if b = 0 then [1] else [0]
  preds := fun b => if b = 0 then [1] else [0]
  mem_preds := by decide
  nodup := by decide
  copies := fun n => if n = 4 then 1 else 0
  copies_input := by
    intro n hn
    obtain rfl | hne := eq_or_ne n 4
    · cases spill with
      | false => exact absurd rfl hn
      | true => exact Nat.zero_lt_one
    · refine absurd ?_ hn
      unfold spillNode
      split <;> first | rfl | contradiction
  doStackAllocation := true
  stackSlots := [7]
  asVMReg := id
  asVMReg_inj := fun _ _ h => h
  legalVMRegName := fun _ => true
  isSaveOnEntry := fun _ => false

/-- The graph has two blocks. -/
theorem spillGraph_block {spill : Bool} (b : (spillGraph spill).Block) :
    b = (spillGraph spill).rootBlock ∨ b = (spillGraph spill).entryBlock := by
  revert b
  cases spill <;> decide

/-- Each of its nodes is in one of them. -/
theorem spillGraph_scheduled (spill : Bool) : (spillGraph spill).Scheduled where
  entry_preds := by cases spill <;> decide
  root_succs := by cases spill <;> decide
  root_nodes := by cases spill <;> decide
  head := by
    intro b n ns h
    obtain rfl | rfl := spillGraph_block b
    · obtain ⟨rfl, -⟩ := List.cons.inj h
      rfl
    · obtain ⟨rfl, -⟩ := List.cons.inj h
      rfl
  reachable := fun b hb => (spillGraph_block b).resolve_left hb ▸ .refl
  framePtr := ⟨(4 : Fin 6), fun b hb hb' => absurd ((spillGraph_block b).resolve_left hb) hb'⟩
  progress := fun b hb => ⟨b, .refl, .inl (by
    rw [(spillGraph_block b).resolve_left hb]
    exact List.mem_singleton.2 rfl)⟩

/-- Everything is set before it is used. -/
theorem spillGraph_not_liveInto (spill : Bool) (b : (spillGraph spill).Block)
    (r : (spillGraph spill).Reg) : ¬ (spillGraph spill).LiveInto b r := by
  intro hlive
  induction hlive with
  | exposed h =>
    rename_i b r
    have hnone : ∀ b, liveAbove (spillGraph spill).kills (spillGraph spill).gens
        ((spillGraph spill).nodes b) ∅ = ∅ := by cases spill <;> decide
    have hmem := mem_liveAbove.2 (.inl h : _ ∨ _ ∧ r ∈ (∅ : Finset (spillGraph spill).Reg))
    rw [hnone b] at hmem
    exact absurd hmem (Finset.notMem_empty r)
  | through _ _ _ ih => exact ih

/-- It has seven nodes. -/
theorem spillGraph_node {spill : Bool} {n : ℕ} (h : 7 ≤ n) :
    (spillGraph spill).node n = blankNode := by
  obtain ⟨k, rfl⟩ := Nat.exists_eq_add_of_le' h
  rfl

/-- It has no derived pointers. -/
theorem spillGraph_derivedInputs (spill : Bool) (n : ℕ) :
    (spillGraph spill).derivedInputs n = [] := by
  obtain h | h := Nat.lt_or_ge n 7
  · revert n
    cases spill <;> decide
  · rw [derivedInputs, spillGraph_node h]
    rfl

/-- Registers are allocated, with the spill or without it. -/
theorem spillGraph_registerAllocated (spill : Bool) : (spillGraph spill).RegisterAllocated where
  one_reaching_def := fun b r h => absurd h (spillGraph_not_liveInto spill b r)
  copy_type := by
    intro n hn
    obtain h | h := Nat.lt_or_ge n 7
    · have hcopy : ∀ n < 7, ((spillGraph spill).node n).copyIndex ≠ 0 →
          ((spillGraph spill).node (((spillGraph spill).node n).input
            ((spillGraph spill).node n).copyIndex)).bottomType =
            ((spillGraph spill).node n).bottomType := by cases spill <;> decide
      exact hcopy n h hn
    · rw [spillGraph_node h] at hn
      exact absurd rfl hn
  boxLock := by
    intro n slot h
    obtain hlt | hge := Nat.lt_or_ge n 7
    · have hbox : ∀ n < 7, ∀ slot ∈ ((spillGraph spill).node n).boxLock,
          ((spillGraph spill).node n).bottomType = .rawPtr ∧
            ((spillGraph spill).node n).copyIndex = 0 := by cases spill <;> decide
      obtain ⟨htype, hcopy⟩ := hbox n hlt slot h
      exact ⟨htype, hcopy, fun _ => rfl⟩
    · rw [spillGraph_node hge] at h
      cases h
  base := by
    intro n i hi
    rw [spillGraph_derivedInputs] at hi
    exact absurd hi List.not_mem_nil

/-- Without the spill all stack oops are recognised. -/
theorem spillGraph_recognised (d : ℕ) : (spillGraph false).Recognised d := by
  have hcopy : ∀ n, ((spillGraph false).node n).copyIndex = 0 := by
    intro n
    obtain h | h := Nat.lt_or_ge n 7
    · revert n
      decide
    · rw [spillGraph_node h]
      rfl
  refine ⟨fun slot hslot _ => ?_, fun haddr => ?_⟩
  · obtain hlt | hge := Nat.lt_or_ge d 7
    · have hbox : ∀ n < 7, ∀ slot ∈ ((spillGraph false).node n).boxLock,
          slot ∈ (spillGraph false).stackSlots := by decide
      exact hbox d hlt slot hslot
    · rw [spillGraph_node hge] at hslot
      cases hslot
  · cases haddr with
    | boxLock h _ => exact h ▸ rfl
    | copy h _ => exact absurd (hcopy d) h

/-- The register of the stack oop is in the map. -/
theorem spillGraph_buildOopMaps :
    (spillGraph false).buildOopMaps = some [(5, [⟨some 0, .oopValue, none⟩])] := by
  decide +kernel

/-- The object is recorded where its `BoxLock` is live itself. -/
theorem buildOopMaps_described_boxLock :
    (spillGraph false).buildOopMaps = some [(5, [⟨some 0, .oopValue, none⟩])] ∧
      ∀ b, ∀ n ∈ (spillGraph false).nodes b, OopFlow.needsMap (spillGraph false) n = true →
        ∃ m, (n, m) ∈ [(5, [⟨some 0, .oopValue, none⟩])] ∧ (spillGraph false).Described n m :=
  ⟨spillGraph_buildOopMaps,
    (buildOopMaps_described_iff (spillGraph_scheduled false) (spillGraph_registerAllocated false)
      spillGraph_buildOopMaps).2 fun _ _ _ _ _ d _ _ _ _ => spillGraph_recognised d⟩

/-- Where the copy of it in a stack slot is live, nothing is recorded. -/
theorem not_described_spilled : (spillGraph true).Scheduled ∧ (spillGraph true).RegisterAllocated ∧
    ∃ maps, (spillGraph true).buildOopMaps = some maps ∧
      ¬ ∀ b, ∀ n ∈ (spillGraph true).nodes b, OopFlow.needsMap (spillGraph true) n = true →
        ∃ m, (n, m) ∈ maps ∧ (spillGraph true).Described n m := by
  refine ⟨spillGraph_scheduled true, spillGraph_registerAllocated true, [(5, [])],
    by decide +kernel, fun h => ?_⟩
  obtain ⟨m, hm, hdesc⟩ := h (spillGraph true).entryBlock 5 (by decide) rfl
  obtain ⟨-, rfl⟩ := Prod.mk.inj (List.mem_singleton.1 hm)
  have hgen : (⟨2, by decide⟩ : (spillGraph true).Reg) ∈ (spillGraph true).gens 5 := by decide
  have hlive : (spillGraph true).LiveAt 5 ⟨2, by decide⟩ :=
    ⟨(spillGraph true).entryBlock, [1, 2, 3, 4], [6], rfl, .inl (exposed_cons.2 (.inl hgen))⟩
  have hdef : (spillGraph true).ReachingDef 5 ⟨2, by decide⟩ 4 :=
    ⟨(spillGraph true).entryBlock, [1, 2, 3, 4], [6], none, rfl, .entry _, by decide⟩
  have haddr : (spillGraph true).StackAddress 4 :=
    .copy (by decide) (.boxLock (rfl : _ = some 7) (List.mem_singleton.2 rfl))
  exact absurd ((hdesc.oop _ _ hlive hdef rfl).2 ⟨.inr haddr, by decide⟩) List.not_mem_nil

end FlowGraph
end StackAllocation
