import StackAllocation.MemoryChain
import Mathlib.Data.Set.Basic
import Mathlib.Data.List.Nodup
import Mathlib.Data.List.Perm.Subperm

/-!
# What a search for a previous store goes past

In an execution an object is made when its allocation is run, and a node is computed from no
object that was made later than the controls that it hangs on; so what is computed before an
allocation is not the object that the allocation makes (`Execution.block_ne_of_dominates`). Of the
nodes that `find_previous_store` goes past, none writes a byte of the access but a store of more
than eight bytes, which the test of the offsets takes for one of eight (`Execution.precise_iff`).
-/

namespace StackAllocation

open Dominance

/-- A byte of memory: a block, and an offset in it. -/
abbrev Byte : Type := ℕ × ℤ

/-- A run of the method to a memory access, and what the nodes were when they were last run. -/
structure Execution (G : MemoryGraph) (X : MemAccess) : Type where
  /-- the nodes that were run before the access, the latest first -/
  past : List ℕ
  run : Run G.flow G.start (G.point :: past)
  /-- the block that a pointer points into -/
  block : ℕ → ℕ
  /-- and where -/
  delta : ℕ → ℤ
  /-- the object that an allocation made last -/
  object : ℕ → ℕ
  /-- when a block was made, 0 if it was there before -/
  born : ℕ → ℕ
  /-- no block that a node is computed from or refers to was made later -/
  newest : ℕ → ℕ
  /-- what a node wrote -/
  writes : ℕ → Set Byte
  /-- which node wrote a byte last, in a memory state -/
  writer : ℕ → Byte → Option ℕ
  born_object : ∀ a, a ∈ G.point :: past → born (object a) = time a (G.point :: past)
  born_le : ∀ n, born (block n) ≤ newest n
  born_adr : born (block X.adr) ≤ newest X.node
  newest_exact : ∀ n m, G.exactControl n = some m → newest n ≤ newest m
  newest_initial : ∀ n, G.isCon n = true ∨ G.isStartOrRoot n = true → newest n = 0
  newest_cfg : ∀ n, G.isCFG n = true → newest n ≤ time n (G.point :: past)
  newest_pinned : ∀ n c rest, G.pinned n = true → G.inputs n = some c :: rest →
    newest n ≤ newest c
  newest_data : ∀ n t, G.isCFG n = false → G.pinned n = false →
    (∀ m c, some m ∈ G.inputs n → G.exactControl m = some c → G.isTop c = false → newest m ≤ t) →
    newest n ≤ t
  block_base : ∀ adr base offset, G.baseAndOffset adr = some (base, offset) →
    block adr = block base ∧ delta adr = delta base + offset
  /-- the base of an address that is not raw is the start of an object -/
  delta_base : ∀ adr base offset, G.baseAndOffset adr = some (base, offset) →
    G.maybeRaw adr = false → delta base = 0
  block_allocation : ∀ p a, G.idealAllocation p = some a → block p = object a
  block_con : ∀ p q, G.isCon p = true → G.isCon q = true → p ≠ q → block p ≠ block q
  /-- a known instance is the object of its allocation -/
  block_instance : ∀ id, X.knownInstance = some id → ∀ a, a ≠ id → block X.adr ≠ object a
  writes_store : ∀ n adr memory size, G.mem n = .store adr memory size →
    ∀ b, b ∈ writes n ↔ b.1 = block adr ∧ delta adr ≤ b.2 ∧ b.2 < delta adr + size
  /-- an allocation, its `Initialize` and a `ClearArray` write its object only -/
  writes_init : ∀ n a memory memoryAt, G.parent n = .initializeNode (some a) memory memoryAt →
    ∀ b ∈ writes n ∪ writes a, b.1 = object a
  writes_clear : ∀ n dest memory a, G.mem n = .clearArray dest memory →
    G.idealAllocation dest = some a → ∀ b ∈ writes n, b.1 = object a
  writer_store : ∀ n adr memory size, G.mem n = .store adr memory size → ∀ b,
    (b ∈ writes n → writer n b = some n) ∧ (b ∉ writes n → writer n b = writer memory b)
  writer_init : ∀ n p a memory memoryAt, G.mem n = .proj p →
    G.parent p = .initializeNode (some a) memory memoryAt → ∀ b : Byte, b.1 ≠ object a →
    writer n b = writer (X.beforeInit G a memoryAt) b
  writer_memBar : ∀ n p memory, G.mem n = .proj p →
    (G.parent p = .call memory ∨ (∃ ac, G.parent p = .arrayCopy ac ∧ ac.memory = memory) ∨
      (∃ copy, G.parent p = .memBar memory copy) ∨
      ∃ a memoryAt, G.parent p = .initializeNode a memory memoryAt) →
    ∀ b, b ∉ writes p → writer n b = writer memory b
  /-- between a `ClearArray` and the `Initialize` of its allocation only its object is written -/
  writer_clear : ∀ n dest memory a, G.mem n = .clearArray dest memory →
    G.idealAllocation dest = some a → ∀ b : Byte, b.1 ≠ object a →
    writer n b = writer ((G.initMemory a).getD (G.allocMemory a)) b
  writer_mergeMem : ∀ n memoryAt, G.mem n = .mergeMem memoryAt → ∀ b : Byte,
    writer n b = writer (memoryAt X.aliasIdx) b

variable {G : MemoryGraph} {X : MemAccess}

namespace MemoryGraph

/-! ## What the list of controls holds

When the loop says yes, the list is closed: what a node on it depends on is on it too. So everything
that the pointer is computed from was there before the allocation. -/

/-- What is on the list, and what is left of it, when nodes are pushed. -/
structure Pushed (ms pending list pending' list' : List ℕ) : Prop where
  list_sub : ∀ n ∈ list, n ∈ list'
  pushed : ∀ m ∈ ms, m ∈ list'
  pending_sub : ∀ n ∈ pending, n ∈ pending'
  pending_list : ∀ n ∈ pending', n ∈ list'
  new : ∀ n ∈ list', n ∈ list ∨ n ∈ pending'
  of_mem : ∀ n ∈ list', n ∈ list ∨ n ∈ ms
  nodup : list.Nodup → list'.Nodup
  length : pending'.length + list.length = pending.length + list'.length

/-- What the walk over the controls pushes: each control once, and the rest are in the list
already. -/
theorem pushed_pushControls {ms pending list : List ℕ} (hsub : ∀ n ∈ pending, n ∈ list) :
    Pushed ms pending list (pushControls ms pending list).1 (pushControls ms pending list).2 := by
  induction ms generalizing pending list with
  | nil =>
    exact ⟨fun _ h => h, fun _ h => absurd h List.not_mem_nil, fun _ h => h, hsub,
      fun _ h => .inl h, fun _ h => .inl h, id, rfl⟩
  | cons m ms ih =>
    rw [pushControls, List.foldl_cons, ← pushControls]
    dsimp only
    split
    · next hm =>
      have h := ih hsub
      refine ⟨h.list_sub, fun k hk => ?_, h.pending_sub, h.pending_list, h.new,
        fun n hn => (h.of_mem n hn).imp_right (List.mem_cons_of_mem m), h.nodup, h.length⟩
      obtain rfl | hk := List.mem_cons.1 hk
      · exact h.list_sub k hm
      · exact h.pushed k hk
    · next hm =>
      have hsub' : ∀ n ∈ pending ++ [m], n ∈ list ++ [m] := fun n hn =>
        (List.mem_append.1 hn).elim (fun h => List.mem_append_left _ (hsub n h))
          (List.mem_append_right _)
      have h := ih hsub'
      have hmem : m ∈ [m] := List.mem_singleton.2 rfl
      refine ⟨fun n hn => h.list_sub n (List.mem_append_left _ hn), fun k hk => ?_,
        fun n hn => h.pending_sub n (List.mem_append_left _ hn), h.pending_list, fun n hn => ?_,
        fun n hn => ?_, fun hnodup => h.nodup ?_, ?_⟩
      · obtain rfl | hk := List.mem_cons.1 hk
        · exact h.list_sub k (List.mem_append_right _ hmem)
        · exact h.pushed k hk
      · obtain hn | hn := h.new n hn
        · obtain hn | hn := List.mem_append.1 hn
          · exact .inl hn
          · exact .inr (h.pending_sub n (List.mem_append_right _ hn))
        · exact .inr hn
      · obtain hn | hn := h.of_mem n hn
        · obtain hn | hn := List.mem_append.1 hn
          · exact .inl hn
          · exact .inr (List.mem_singleton.1 hn ▸ List.mem_cons_self)
        · exact .inr (List.mem_cons_of_mem m hn)
      · exact List.nodup_append'.2 ⟨hnodup, List.nodup_singleton m,
          fun k hk hk' => hm (List.mem_singleton.1 hk' ▸ hk)⟩
      · have hlen := h.length
        rw [List.length_append, List.length_append] at hlen
        have hone : [m].length = 1 := rfl
        dsimp only
        omega

/-- A node of the list that was looked at: what it pushes is on the list too. -/
def Visited (G : MemoryGraph) (origSub sub : ℕ) (list : List ℕ) (n : ℕ) : Prop :=
  n ≠ origSub ∧ ∃ ms sets, G.visitControl sub n = some (ms, sets) ∧ ∀ m ∈ ms, m ∈ list

/-- A longer list visits more. -/
theorem Visited.mono {origSub sub n : ℕ} {list list' : List ℕ}
    (h : Visited G origSub sub list n) (hsub : ∀ m ∈ list, m ∈ list') :
    Visited G origSub sub list' n := by
  obtain ⟨hne, ms, sets, heq, hms⟩ := h
  exact ⟨hne, ms, sets, heq, fun m hm => hsub m (hms m hm)⟩

/-- When the loop answers `true`, all that is on the list was looked at. -/
theorem controlsLoop_eq_true {origSub sub fuel : ℕ} {pending list : List ℕ} {only : Bool}
    (hsub : ∀ n ∈ pending, n ∈ list)
    (hvisited : ∀ n ∈ list, n ∈ pending ∨ Visited G origSub sub list n)
    (h : G.controlsLoop origSub sub fuel pending list only = some true) :
    ∃ list', (∀ n ∈ list, n ∈ list') ∧ ∀ n ∈ list', Visited G origSub sub list' n := by
  induction fuel generalizing pending list only with
  | zero => cases h
  | succ fuel ih =>
    cases pending with
    | nil => exact ⟨list, fun _ h => h, fun n hn => (hvisited n hn).resolve_left List.not_mem_nil⟩
    | cons n pending =>
      rw [controlsLoop] at h
      split at h
      · cases h
      · next hne =>
        split at h
        · cases h
        · next ms sets hms =>
          have hpush : Pushed ms _ _ _ _ :=
            pushed_pushControls fun k hk => hsub k (List.mem_cons_of_mem n hk)
          have hvisited' : ∀ k ∈ (pushControls ms pending list).2,
              k ∈ (pushControls ms pending list).1 ∨
                Visited G origSub sub (pushControls ms pending list).2 k := by
            intro k hk
            obtain hk | hk := hpush.new k hk
            · obtain hk | hk := hvisited k hk
              · obtain rfl | hk := List.mem_cons.1 hk
                · exact .inr ⟨hne, ms, sets, hms, hpush.pushed⟩
                · exact .inl (hpush.pending_sub k hk)
              · exact .inr (hk.mono hpush.list_sub)
            · exact .inl hk
          obtain ⟨list', hsub', hall⟩ := ih hpush.pending_list hvisited' h
          exact ⟨list', fun k hk => hsub' k (hpush.list_sub k hk), hall⟩

/-- The controls of the inputs of a node. -/
theorem mem_controlsOf {n c : ℕ} :
    some c ∈ G.controlsOf n ↔ ∃ m, some m ∈ G.inputs n ∧ G.exactControl m = some c := by
  rw [controlsOf, List.mem_map]
  constructor
  · rintro ⟨i, hi, heq⟩
    obtain ⟨m, rfl, hm⟩ := Option.bind_eq_some_iff.1 heq
    exact ⟨m, hi, hm⟩
  · rintro ⟨m, hm, heq⟩
    exact ⟨some m, hm, heq⟩

/-- The control of its first input. -/
theorem head_controlsOf {n c : ℕ} (h : (G.controlsOf n).head?.join = some c) :
    ∃ m rest, G.inputs n = some m :: rest ∧ G.exactControl m = some c := by
  rw [controlsOf] at h
  cases hin : G.inputs n with
  | nil =>
    rw [hin] at h
    cases h
  | cons i rest =>
    rw [hin] at h
    obtain ⟨m, rfl, hm⟩ := Option.bind_eq_some_iff.1 (show i.bind G.exactControl = some c from h)
    exact ⟨m, rest, rfl, hm⟩

/-- What the loop does with a node. -/
theorem visitControl_eq_some {sub n : ℕ} {ms : List ℕ} {sets : Bool}
    (h : G.visitControl sub n = some (ms, sets)) :
    (G.isCFG n = false ∧ G.pinned n = true ∧
        ∃ m, (G.controlsOf n).head?.join = some m ∧ ms = [m]) ∨
      ((G.isCon n = true ∨ G.isStartOrRoot n = true) ∧ ms = []) ∨
      (G.isCFG n = true ∧ G.dominates n sub = true ∧ ms = []) ∨
      G.isCFG n = false ∧ G.pinned n = false ∧
        ∀ c, c ∈ ms ↔ some c ∈ G.controlsOf n ∧ G.isTop c = false := by
  rw [visitControl] at h
  split at h
  · next hpinned =>
    rw [Bool.and_eq_true, Bool.not_eq_true'] at hpinned
    split at h
    · cases h
    · next m hm =>
      split at h
      · cases h
      · exact .inl ⟨hpinned.1, hpinned.2, m, hm, (Prod.mk.inj (Option.some.inj h)).1.symm⟩
  · next hpinned =>
    split at h
    · next hcon =>
      exact .inr (.inl ⟨(Bool.or_eq_true _ _).mp hcon, (Prod.mk.inj (Option.some.inj h)).1.symm⟩)
    · split at h
      · next hcfg =>
        split at h
        · next hdom =>
          exact .inr (.inr (.inl ⟨hcfg, hdom, (Prod.mk.inj (Option.some.inj h)).1.symm⟩))
        · cases h
      · next hcfg =>
        split at h
        · cases h
        · obtain ⟨rfl, -⟩ := Prod.mk.inj (Option.some.inj h)
          rw [Bool.not_eq_true] at hcfg
          rw [hcfg, Bool.not_false, Bool.true_and, Bool.not_eq_true] at hpinned
          refine .inr (.inr (.inr ⟨hcfg, hpinned, fun c => ?_⟩))
          rw [List.mem_filter, List.mem_filterMap, Bool.not_eq_true']
          refine and_congr_left fun _ => ⟨?_, fun hc => ⟨some c, hc, rfl⟩⟩
          rintro ⟨o, ho, rfl⟩
          exact ho

/-- What is pushed are controls. -/
theorem visitControl_lt {sub n m : ℕ} {ms : List ℕ} {sets : Bool}
    (h : G.visitControl sub n = some (ms, sets)) (hm : m ∈ ms) : m < G.size := by
  obtain ⟨-, -, c, hc, rfl⟩ | ⟨-, rfl⟩ | ⟨-, -, rfl⟩ | ⟨-, -, hms⟩ := visitControl_eq_some h
  · obtain rfl := List.mem_singleton.1 hm
    obtain ⟨k, -, -, hk⟩ := head_controlsOf hc
    exact G.exactControl_lt k m hk
  · exact absurd hm List.not_mem_nil
  · exact absurd hm List.not_mem_nil
  · obtain ⟨k, -, hk⟩ := mem_controlsOf.1 ((hms m).1 hm).1
    exact G.exactControl_lt k m hk

/-- The list gets no longer than there are nodes, so the loop ends. -/
theorem controlsLoop_isSome {origSub sub fuel : ℕ} {pending list : List ℕ} {only : Bool}
    (hsub : ∀ n ∈ pending, n ∈ list) (hnodup : list.Nodup) (hlt : ∀ n ∈ list, n < G.size)
    (hfuel : pending.length + G.size < fuel + list.length) :
    (G.controlsLoop origSub sub fuel pending list only).isSome := by
  have hlen : list.length ≤ G.size := by
    have hle := (List.subperm_of_subset hnodup fun n hn => List.mem_range.2 (hlt n hn)).length_le
    rwa [List.length_range] at hle
  induction fuel generalizing pending list only with
  | zero => omega
  | succ fuel ih =>
    cases pending with
    | nil => rfl
    | cons n pending =>
      rw [controlsLoop]
      split
      · rfl
      · split
        · rfl
        · next ms sets hms =>
          have hpush : Pushed ms _ _ _ _ :=
            pushed_pushControls fun k hk => hsub k (List.mem_cons_of_mem n hk)
          have hlt' : ∀ k ∈ (pushControls ms pending list).2, k < G.size := fun k hk =>
            (hpush.of_mem k hk).elim (hlt k) (visitControl_lt hms)
          have hlength := hpush.length
          rw [List.length_cons] at hfuel
          refine ih hpush.pending_list (hpush.nodup hnodup) hlt' (by omega) ?_
          have hle := (List.subperm_of_subset (hpush.nodup hnodup)
            fun k hk => List.mem_range.2 (hlt' k hk)).length_le
          rwa [List.length_range] at hle

/-- The fuel of `all_controls_dominate` suffices: the loop from the control of a node ends. -/
theorem controlsLoop_ends {sub ctrl dom : ℕ} (h : dom < G.size) :
    (G.controlsLoop sub ctrl (G.size + 1) [dom] [dom] false).isSome := by
  refine controlsLoop_isSome (fun _ hn => hn) (List.nodup_singleton dom) (fun n hn => ?_) ?_
  · exact List.mem_singleton.1 hn ▸ h
  · simp only [List.length_singleton]
    omega

end MemoryGraph

namespace Execution

variable (E : Execution G X)

/-! ## What was there before an allocation

An object is identified by its allocation and the time it was made. A pointer that is computed from
what was there before an allocation was last run cannot be to the object that it made then. -/

/-- The last run of a node. -/
def lastRun (n : ℕ) : ℕ := time n (G.point :: E.past)

/-- What is computed from controls that dominate `sub` was there at `sub`. -/
theorem newest_le_of_visited {origSub sub : ℕ} {list : List ℕ}
    (hsub : Dominates G.flow G.start sub G.point)
    (hall : ∀ n ∈ list, G.Visited origSub sub list n) (n : ℕ) (hn : n ∈ list) :
    E.newest n ≤ E.lastRun sub := by
  induction hrank : G.rank n using Nat.strong_induction_on generalizing n with
  | _ k ih =>
    subst hrank
    obtain ⟨-, ms, sets, heq, hms⟩ := hall n hn
    obtain ⟨hcfg, hpinned, c, hc, rfl⟩ | ⟨hcon, -⟩ | ⟨hcfg, hdom, -⟩ | ⟨hcfg, hpinned, hmem⟩ :=
      G.visitControl_eq_some heq
    · obtain ⟨m, rest, hin, hexact⟩ := G.head_controlsOf hc
      have hrank := G.rank_lt n hcfg m c (hin ▸ List.mem_cons_self) hexact
      calc E.newest n ≤ E.newest m := E.newest_pinned n m rest hpinned hin
        _ ≤ E.newest c := E.newest_exact m c hexact
        _ ≤ E.lastRun sub := ih _ hrank c (hms c (List.mem_singleton.2 rfl)) rfl
    · rw [E.newest_initial n hcon]
      exact Nat.zero_le _
    · exact (E.newest_cfg n hcfg).trans (time_le E.run (G.dominates_sound n sub hdom) hsub)
    · refine E.newest_data n _ hcfg hpinned fun m c hm hexact htop => ?_
      have hrank := G.rank_lt n hcfg m c hm hexact
      have hc : c ∈ ms := (hmem c).2 ⟨G.mem_controlsOf.2 ⟨m, hm, hexact⟩, htop⟩
      exact (E.newest_exact m c hexact).trans (ih _ hrank c (hms c hc) rfl)

variable {a : ℕ}

/-- What an allocation is: it is run before the access. -/
def IsAllocation (G : MemoryGraph) (a : ℕ) : Prop :=
  ∃ p, G.idealAllocation p = some a ∨
    ∃ memory memoryAt, G.parent p = .initializeNode (some a) memory memoryAt

/-- An allocation that is found as a base was run on every way to the access. -/
theorem IsAllocation.dominates (ha : IsAllocation G a) :
    Dominates G.flow G.start a G.point := by
  obtain ⟨p, hp | ⟨memory, memoryAt, hp⟩⟩ := ha
  · exact G.allocation_dominates p a hp
  · exact G.init_dominates p a memory memoryAt hp

/-- The object that a base refers to was made when its allocation was last run. -/
theorem born_object_eq (ha : IsAllocation G a) :
    E.born (E.object a) = E.lastRun a ∧ 0 < E.lastRun a :=
  ⟨E.born_object a (ha.dominates _ E.run), time_pos (ha.dominates _ E.run)⟩

/-- What `all_controls_dominate` proves: no object is newer than what was there before. -/
theorem newest_lt_of_allControlsDominate {dom : ℕ} (ha : IsAllocation G a)
    (h : G.allControlsDominate dom a = true) : E.newest dom < E.lastRun a := by
  have hpos := (E.born_object_eq ha).2
  rw [MemoryGraph.allControlsDominate] at h
  split at h
  · cases h
  split at h
  · cases h
  next d hd =>
  refine (E.newest_exact dom d hd).trans_lt ?_
  split at h
  · cases h
  split at h
  · next hcon => rwa [E.newest_initial d ((Bool.or_eq_true _ _).mp hcon)]
  split at h
  · cases h
  next ctrl hctrl =>
  obtain ⟨m, rest, hin, hexact⟩ := G.head_controlsOf hctrl
  obtain ⟨p, hp⟩ := ha
  obtain ⟨hcfg, hdom, hne⟩ := G.control_dominates p a m ctrl rest hp hin hexact
  have hdoma := IsAllocation.dominates ⟨p, hp⟩
  have hctrlPoint := hdom.trans hdoma
  have hlt : E.lastRun ctrl < E.lastRun a := by
    refine lt_of_le_of_ne (time_le E.run hdom hdoma) fun heq => hne ?_
    exact eq_of_time_eq (hctrlPoint _ E.run) heq
  refine lt_of_le_of_lt ?_ hlt
  split at h
  · cases h
  split at h
  · next heq =>
    subst heq
    exact E.newest_cfg ctrl hcfg
  split at h
  · cases h
  have hmem : d ∈ [d] := List.mem_singleton.2 rfl
  have hloop : G.controlsLoop a ctrl (G.size + 1) [d] [d] false = some true := by
    cases hres : G.controlsLoop a ctrl (G.size + 1) [d] [d] false with
    | none =>
      rw [hres] at h
      cases h
    | some b =>
      rw [hres] at h
      exact congrArg some h
  obtain ⟨list, hsub, hall⟩ :=
    G.controlsLoop_eq_true (fun _ h => h) (fun _ h => .inl h) hloop
  exact E.newest_le_of_visited hctrlPoint hall d (hsub d hmem)

/-- So it is not the object of the allocation. -/
theorem block_ne_of_dominates {p : ℕ} (ha : IsAllocation G a)
    (h : G.allControlsDominate p a = true) : E.block p ≠ E.object a := by
  intro heq
  have hborn := E.born_le p
  have hlt := E.newest_lt_of_allControlsDominate ha h
  rw [heq, (E.born_object_eq ha).1] at hborn
  omega

/-- Different allocations make different objects. -/
theorem object_ne {a' : ℕ} (ha : IsAllocation G a) (ha' : IsAllocation G a') (hne : a ≠ a') :
    E.object a ≠ E.object a' := by
  intro heq
  refine hne (eq_of_time_eq (ha.dominates _ E.run) ?_)
  exact (E.born_object_eq ha).1.symm.trans ((congrArg E.born heq).trans (E.born_object_eq ha').1)

/-- `detect_ptr_independence` proves that the pointers point into different blocks. -/
theorem block_ne_of_independent {p q : ℕ}
    (h : G.detectPtrIndependence p (G.idealAllocation p) q (G.idealAllocation q) = true) :
    E.block p ≠ E.block q := by
  cases hp : G.idealAllocation p with
  | none =>
    cases hq : G.idealAllocation q with
    | none =>
      rw [hp, hq] at h
      replace h : (p != q && G.isCon p && G.isCon q) = true := h
      simp only [Bool.and_eq_true, bne_iff_ne] at h
      exact E.block_con p q h.1.2 h.2 h.1.1
    | some a' =>
      rw [hp, hq] at h
      rw [E.block_allocation q a' hq]
      exact E.block_ne_of_dominates ⟨q, .inl hq⟩ h
  | some a =>
    rw [E.block_allocation p a hp]
    cases hq : G.idealAllocation q with
    | none =>
      rw [hp, hq] at h
      exact (E.block_ne_of_dominates ⟨p, .inl hp⟩ h).symm
    | some a' =>
      rw [hp, hq] at h
      rw [E.block_allocation q a' hq]
      exact E.object_ne ⟨p, .inl hp⟩ ⟨q, .inl hq⟩ (bne_iff_ne.1 h)

/-! ## What the walk goes past

For each rule of the walk, that what is gone past writes no byte of the access. The one exception is
the distance of offsets: a store that starts eight bytes below may reach into the access, if it is
longer than that. -/

/-- The bytes of the access. -/
def range : Set Byte :=
  {b | b.1 = E.block X.adr ∧ E.delta X.adr ≤ b.2 ∧ b.2 < E.delta X.adr + X.size}

/-- A store of more than eight bytes that starts at least eight bytes below the access and reaches
into it. -/
def ReachesOver (st : ℕ) : Prop :=
  ∃ adr memory size, G.mem st = .store adr memory size ∧ 8 < size ∧
    E.block adr = E.block X.adr ∧ E.delta adr + 8 ≤ E.delta X.adr ∧
    E.delta X.adr < E.delta adr + size

/-- The nodes write nothing that is accessed, and the memory is as it was before them. -/
structure Clean (ops : List ℕ) (mem before : ℕ) : Prop where
  writes : ∀ op ∈ ops, ∀ b ∈ E.range, b ∉ E.writes op
  writer : ∀ b ∈ E.range, E.writer mem b = E.writer before b

/-- What a step goes past is clean. -/
def StepClean (start : ℕ) : ChainStep → Prop
  | .past ops mem => E.Clean ops start mem
  | .found ops mem => E.Clean ops start mem
  | .stop ops => ∃ mem, E.Clean ops start mem

variable {E}

/-- Nodes that are gone past, and then others. -/
theorem Clean.trans {ops ops' : List ℕ} {mem before before' : ℕ} (h : E.Clean ops mem before)
    (h' : E.Clean ops' before before') : E.Clean (ops ++ ops') mem before' where
  writes := fun op hop => (List.mem_append.1 hop).elim (h.writes op) (h'.writes op)
  writer := fun b hb => (h.writer b hb).trans (h'.writer b hb)

/-- None are. -/
theorem Clean.refl (mem : ℕ) : E.Clean [] mem mem where
  writes := fun _ hop => absurd hop List.not_mem_nil
  writer := fun _ _ => rfl

/-- A store that reaches over eight bytes into the access writes its first byte. -/
theorem ReachesOver.not_clean {st : ℕ} (h : E.ReachesOver st) :
    ∃ b ∈ E.range, b ∈ E.writes st := by
  obtain ⟨adr, memory, size, hst, -, hblock, hlow, hhigh⟩ := h
  have hsize := X.size_pos
  refine ⟨(E.block X.adr, E.delta X.adr), ⟨rfl, Int.le_refl _, ?_⟩, ?_⟩
  · dsimp only
    omega
  · rw [E.writes_store st adr memory size hst]
    exact ⟨hblock.symm, by dsimp only; omega, hhigh⟩

/-- A store that writes nothing that is accessed. -/
theorem clean_store {st adr memory size : ℕ} (hst : G.mem st = .store adr memory size)
    (h : ∀ b ∈ E.range, b ∉ E.writes st) : E.Clean [st] st memory where
  writes := fun _ hop b hb => List.mem_singleton.1 hop ▸ h b hb
  writer := fun b hb => (E.writer_store st adr memory size hst b).2 (h b hb)

/-- What a memory operation before the access writes is elsewhere. -/
theorem notMem_of_block_ne {b : Byte} (hb : b ∈ E.range) {block : ℕ}
    (hne : E.block X.adr ≠ block) : b.1 ≠ block :=
  fun h => hne (hb.1.symm.trans h)

section Step

variable {base : ℕ} {offset : ℤ} (hbase : G.baseAndOffset X.adr = some (base, offset))
include hbase

/-- The addresses of accesses with the same base, or that are not raw, differ by their offsets. -/
theorem delta_eq {stAdr stBase : ℕ} {stOffset : ℤ}
    (hst : G.baseAndOffset stAdr = some (stBase, stOffset))
    (hraw : ((G.maybeRaw X.adr || G.maybeRaw stAdr) && stBase != base) = false)
    (hblock : E.block stBase = E.block base) :
    E.delta X.adr - offset = E.delta stAdr - stOffset ∧ E.block stAdr = E.block X.adr := by
  obtain ⟨hb, hd⟩ := E.block_base X.adr base offset hbase
  obtain ⟨hb', hd'⟩ := E.block_base stAdr stBase stOffset hst
  refine ⟨?_, hb'.trans (hblock.trans hb.symm)⟩
  rw [hd, hd']
  obtain hraw | hsame := Bool.and_eq_false_iff.1 hraw
  · obtain ⟨hadr, hstAdr⟩ := Bool.or_eq_false_iff.1 hraw
    rw [E.delta_base X.adr base offset hbase hadr, E.delta_base stAdr stBase stOffset hst hstAdr]
    omega
  · rw [bne_eq_false_iff_eq] at hsame
    subst hsame
    omega

/-- What the walk does at a store. -/
theorem storeStep_clean {st stAdr stMemory stSize : ℕ}
    (hst : G.mem st = .store stAdr stMemory stSize) :
    (∃ op ∈ (X.storeStep G base offset st stAdr stMemory stSize).ops, E.ReachesOver op) ∨
      E.StepClean st (X.storeStep G base offset st stAdr stMemory stSize) := by
  rw [MemAccess.storeStep]
  split
  · exact .inr ⟨st, .refl st⟩
  next stBase stOffset hstBase =>
  split
  · exact .inr ⟨st, .refl st⟩
  next hraw =>
  rw [Bool.not_eq_true] at hraw
  have hwrites := E.writes_store st stAdr stMemory stSize hst
  -- a byte that is accessed and written
  have hcommon : ∀ b ∈ E.range, b ∈ E.writes st → E.block stBase = E.block base := by
    intro b hb hw
    obtain ⟨hb', -⟩ := E.block_base X.adr base offset hbase
    obtain ⟨hstb, -⟩ := E.block_base stAdr stBase stOffset hstBase
    exact hstb.symm.trans (((hwrites b).1 hw).1.symm.trans (hb.1.trans hb'))
  split
  · next hapart =>
    by_cases hover : E.ReachesOver st
    · exact .inl ⟨st, List.mem_singleton.2 rfl, hover⟩
    refine .inr (clean_store hst fun b hb hw => hover ?_)
    obtain ⟨hdelta, hblock⟩ := delta_eq hbase hstBase hraw (hcommon b hb hw)
    obtain ⟨-, hlow, hhigh⟩ := (hwrites b).1 hw
    obtain ⟨-, hlow', hhigh'⟩ := hb
    refine ⟨stAdr, stMemory, stSize, hst, ?_⟩
    rw [MemAccess.offsetsApart, maxStore] at hapart
    simp only [Bool.and_eq_true, bne_iff_ne, Bool.or_eq_true, decide_eq_true_eq] at hapart
    obtain ⟨-, (habove | hfar) | hbelow⟩ := hapart
    · omega
    · exact ⟨by omega, hblock, by omega, by omega⟩
    · omega
  · split
    · next hindep =>
      refine .inr (clean_store hst fun b hb hw => ?_)
      rw [Bool.and_eq_true] at hindep
      exact E.block_ne_of_independent hindep.2 (hcommon b hb hw).symm
    · split
      · exact .inr (.refl st)
      · exact .inr ⟨st, .refl st⟩

/-- What the walk does at the projection of an `Initialize`. -/
theorem initStep_clean {mem init memory : ℕ} {allocation : Option ℕ} {memoryAt : ℕ → ℕ}
    (hmem : G.mem mem = .proj init)
    (hinit : G.parent init = .initializeNode allocation memory memoryAt) :
    E.StepClean mem (X.initStep G base mem init allocation memoryAt) := by
  cases allocation with
  | none => exact ⟨mem, .refl mem⟩
  | some a =>
  rw [MemAccess.initStep]
  have ha : IsAllocation G a := ⟨init, .inr ⟨memory, memoryAt, hinit⟩⟩
  split
  · exact .refl mem
  next hne =>
  split
  · next hindep =>
    have hblock : E.block X.adr ≠ E.object a := by
      obtain hsome | hdom := (Bool.or_eq_true _ _).mp hindep
      · obtain ⟨a', ha'⟩ := Option.isSome_iff_exists.1 hsome
        rw [(E.block_base X.adr base offset hbase).1, E.block_allocation base a' ha']
        exact E.object_ne ⟨base, .inl ha'⟩ ha fun heq => hne (heq ▸ ha')
      · intro heq
        have hborn := E.born_adr
        have hlt := E.newest_lt_of_allControlsDominate ha hdom
        rw [heq, (E.born_object_eq ha).1] at hborn
        omega
    refine ⟨fun op hop b hb hw => ?_, fun b hb => ?_⟩
    · refine notMem_of_block_ne hb hblock (E.writes_init init a memory memoryAt hinit b ?_)
      split at hop
      · obtain rfl | hop := List.mem_cons.1 hop
        · exact .inl hw
        · exact .inr (List.mem_singleton.1 hop ▸ hw)
      · exact .inl (List.mem_singleton.1 hop ▸ hw)
    · exact E.writer_init mem init a memory memoryAt hmem hinit b (notMem_of_block_ne hb hblock)
  · exact ⟨mem, .refl mem⟩

end Step

variable (E) in
/-- The answers of `may_modify` and `modifies` are sound: what they say does not modify the
location does not write it. -/
structure MayModifySound : Prop where
  call : ∀ p, X.knownInstance.isSome → X.callMayModify p = false → ∀ b ∈ E.range, b ∉ E.writes p
  memBar : ∀ p, X.knownInstance.isSome → X.memBarMayModify p = false →
    ∀ b ∈ E.range, b ∉ E.writes p
  modifies : ∀ p ac, G.parent p = .arrayCopy ac → X.addpBase = some ac.dest →
    X.modifies p = false → ∀ b ∈ E.range, b ∉ E.writes p

/-- A node between two memory states. -/
theorem clean_proj {mem p memory : ℕ} (hmem : G.mem mem = .proj p)
    (hp : G.parent p = .call memory ∨ (∃ ac, G.parent p = .arrayCopy ac ∧ ac.memory = memory) ∨
      (∃ copy, G.parent p = .memBar memory copy) ∨
      ∃ a memoryAt, G.parent p = .initializeNode a memory memoryAt)
    (h : ∀ b ∈ E.range, b ∉ E.writes p) : E.Clean [p] mem memory where
  writes := fun _ hop b hb => List.mem_singleton.1 hop ▸ h b hb
  writer := fun b hb => E.writer_memBar mem p memory hmem hp b (h b hb)

/-- A known instance is not what another allocation clears. -/
theorem stepThrough_clean {id mem dest memory mem' : ℕ} (hid : X.knownInstance = some id)
    (hmem : G.mem mem = .clearArray dest memory)
    (h : MemAccess.stepThrough G id dest = some mem') : E.Clean [mem] mem mem' := by
  rw [MemAccess.stepThrough] at h
  split at h
  · cases h
  next a ha =>
  split at h
  · cases h
  next hne =>
  obtain rfl := Option.some.inj h
  have hblock := E.block_instance id hid a hne
  refine ⟨fun op hop b hb hw => ?_, fun b hb => ?_⟩
  · obtain rfl := List.mem_singleton.1 hop
    exact notMem_of_block_ne hb hblock (E.writes_clear op dest memory a hmem ha b hw)
  · exact E.writer_clear mem dest memory a hmem ha b (notMem_of_block_ne hb hblock)

section Other

variable (hE : E.MayModifySound)
include hE

/-- What `find_previous_arraycopy` goes past. -/
theorem findPreviousArraycopy_clean {base mem mem' : ℕ} {ac : Option ℕ} {before : List ℕ}
    (h : X.findPreviousArraycopy G base mem = (ac, before, mem')) : E.Clean before mem mem' := by
  have hsame : ∀ c : Option ℕ, (c, ([] : List ℕ), mem) = (ac, before, mem') →
      E.Clean before mem mem' := by
    intro c heq
    obtain ⟨-, heq⟩ := Prod.mk.inj heq
    obtain ⟨rfl, rfl⟩ := Prod.mk.inj heq
    exact .refl mem
  rw [MemAccess.findPreviousArraycopy] at h
  split at h
  · next p hmem =>
    split at h
    · split at h
      · split at h
        · exact hsame _ h
        · exact hsame _ h
      · exact hsame _ h
    · next copy hp =>
      split at h
      · next hdest =>
        rw [Bool.and_eq_true, beq_iff_eq] at hdest
        split at h
        · exact hsame _ h
        · next hmodifies =>
          obtain ⟨-, heq⟩ := Prod.mk.inj h
          obtain ⟨rfl, rfl⟩ := Prod.mk.inj heq
          exact clean_proj hmem (.inr (.inl ⟨copy, hp, rfl⟩))
            (hE.modifies p copy hp hdest.2 (Bool.not_eq_true _ ▸ hmodifies))
      · exact hsame _ h
    · exact hsame _ h
  · exact hsame _ h

/-- What the walk does at a memory state of a known instance. -/
theorem instanceStep_clean {id mem start : ℕ} {before : List ℕ} (hid : X.knownInstance = some id)
    (hbefore : E.Clean before start mem) : E.StepClean start (X.instanceStep G id before mem) := by
  have hsome : X.knownInstance.isSome := hid ▸ rfl
  rw [MemAccess.instanceStep]
  split
  · next p hmem =>
    split
    · next memory hp =>
      split
      · exact ⟨mem, hbefore⟩
      · next hno =>
        exact hbefore.trans (clean_proj hmem (.inl hp) (hE.call p hsome (Bool.not_eq_true _ ▸ hno)))
    · next ac hp =>
      split
      · exact ⟨mem, hbefore⟩
      · next hno =>
        exact hbefore.trans (clean_proj hmem (.inr (.inl ⟨ac, hp, rfl⟩))
          (hE.call p hsome (Bool.not_eq_true _ ▸ hno)))
    · next memory copy hp =>
      split
      · exact ⟨mem, hbefore⟩
      · next hno =>
        exact hbefore.trans (clean_proj hmem (.inr (.inr (.inl ⟨copy, hp⟩)))
          (hE.memBar p hsome (Bool.not_eq_true _ ▸ hno)))
    · next a memory memoryAt hp =>
      split
      · exact ⟨mem, hbefore⟩
      · next hno =>
        exact hbefore.trans (clean_proj hmem (.inr (.inr (.inr ⟨a, memoryAt, hp⟩)))
          (hE.memBar p hsome (Bool.not_eq_true _ ▸ hno)))
    · exact ⟨mem, hbefore⟩
  · next dest memory hmem =>
    split
    · exact hbefore
    · next mem' hstep => exact hbefore.trans (stepThrough_clean hid hmem hstep)
  · next memoryAt hmem =>
    have hmerge : E.Clean [] mem (memoryAt X.aliasIdx) :=
      ⟨fun _ hop => absurd hop List.not_mem_nil, fun b _ => E.writer_mergeMem mem memoryAt hmem b⟩
    have hclean := hbefore.trans hmerge
    rwa [List.append_nil] at hclean
  · exact ⟨mem, hbefore⟩

/-- What the walk does at anything but a store and the projection of an `Initialize`. -/
theorem otherStep_clean (base mem : ℕ) : E.StepClean mem (X.otherStep G base mem) := by
  have hcopy : ∀ ac before mem',
      (if X.isLoad then X.findPreviousArraycopy G base mem else (none, [], mem)) =
        (ac, before, mem') → E.Clean before mem mem' := by
    intro ac before mem' h
    split at h
    · exact findPreviousArraycopy_clean hE h
    · obtain ⟨-, heq⟩ := Prod.mk.inj h
      obtain ⟨rfl, rfl⟩ := Prod.mk.inj heq
      exact .refl mem
  rw [MemAccess.otherStep]
  split
  · next before mem' heq => exact hcopy _ _ _ heq
  · next before mem' heq =>
    have hbefore := hcopy _ _ _ heq
    split
    · exact ⟨mem', hbefore⟩
    · next id hid => exact instanceStep_clean hE hid hbefore

/-- What the walk does at a memory state. -/
theorem chainStep_clean {base : ℕ} {offset : ℤ}
    (hbase : G.baseAndOffset X.adr = some (base, offset))
    (mem : ℕ) : (∃ op ∈ (X.chainStep G base offset mem).ops, E.ReachesOver op) ∨
      E.StepClean mem (X.chainStep G base offset mem) := by
  rw [MemAccess.chainStep]
  split
  · next stAdr stMemory stSize hmem => exact storeStep_clean hbase hmem
  · next p hmem =>
    split
    · next allocation memory memoryAt hp => exact .inr (initStep_clean hbase hmem hp)
    · exact .inr (otherStep_clean hE base mem)
  · exact .inr (otherStep_clean hE base mem)

/-- The whole walk. -/
theorem chainWalk_clean {base : ℕ} {offset : ℤ}
    (hbase : G.baseAndOffset X.adr = some (base, offset))
    (cnt mem : ℕ) : (∃ op ∈ (X.chainWalk G base offset cnt mem).2, E.ReachesOver op) ∨
      (∀ op ∈ (X.chainWalk G base offset cnt mem).2, ∀ b ∈ E.range, b ∉ E.writes op) ∧
      ∀ r, (X.chainWalk G base offset cnt mem).1 = some r →
        ∀ b ∈ E.range, E.writer mem b = E.writer r b := by
  induction cnt generalizing mem with
  | zero => exact .inr ⟨fun _ hop => absurd hop List.not_mem_nil, nofun⟩
  | succ cnt ih =>
    have hstep := chainStep_clean hE hbase mem
    rw [MemAccess.chainWalk]
    split
    · next ops mem' heq =>
      rw [heq] at hstep
      obtain ⟨op, hop, hover⟩ | hclean := hstep
      · exact .inl ⟨op, List.mem_append_left _ hop, hover⟩
      obtain ⟨op, hop, hover⟩ | ⟨hwrites, hresult⟩ := ih mem'
      · exact .inl ⟨op, List.mem_append_right _ hop, hover⟩
      · refine .inr ⟨fun op hop => ?_, fun r hr b hb => ?_⟩
        · exact (List.mem_append.1 hop).elim (hclean.writes op) (hwrites op)
        · exact (hclean.writer b hb).trans (hresult r hr b hb)
    · next ops mem' heq =>
      rw [heq] at hstep
      refine hstep.imp_right fun hclean => ⟨hclean.writes, fun r hr b hb => ?_⟩
      obtain rfl := Option.some.inj hr
      exact hclean.writer b hb
    · next ops heq =>
      rw [heq] at hstep
      exact hstep.imp_right fun ⟨_, hclean⟩ => ⟨hclean.writes, nofun⟩

end Other

variable (E) in
/-- What the walk goes past writes no byte of the access, and a store into the same place that it
returns wrote last what it writes of it. -/
def Precise : Prop :=
  (∀ op ∈ (X.findPreviousStore G).2, ∀ b ∈ E.range, b ∉ E.writes op) ∧
    ∀ st adr memory size, (X.findPreviousStore G).1 = some st →
      G.mem st = .store adr memory size → G.baseAndOffset adr = G.baseAndOffset X.adr →
      ∀ b ∈ E.range, b ∈ E.writes st → E.writer X.memory b = some st

/-- The search is precise in an execution exactly if it goes past no store of more than eight bytes
that starts at least eight bytes below the access and reaches into it. -/
theorem precise_iff (hE : E.MayModifySound) :
    E.Precise ↔ ∀ op ∈ (X.findPreviousStore G).2, ¬ E.ReachesOver op := by
  constructor
  · rintro ⟨hwrites, -⟩ op hop hover
    obtain ⟨b, hb, hw⟩ := hover.not_clean
    exact hwrites op hop b hb hw
  · intro hno
    rw [Precise]
    cases hbase : G.baseAndOffset X.adr with
    | none =>
      rw [MemAccess.findPreviousStore, hbase]
      exact ⟨fun _ hop => absurd hop List.not_mem_nil, nofun⟩
    | some p =>
      obtain ⟨base, offset⟩ := p
      rw [MemAccess.findPreviousStore, hbase] at hno ⊢
      obtain ⟨op, hop, hover⟩ | ⟨hwrites, hresult⟩ := chainWalk_clean hE hbase 50 X.memory
      · exact absurd hover (hno op hop)
      · refine ⟨hwrites, fun st adr memory size hst hmem _ b hb hw => ?_⟩
        rw [hresult st hst b hb]
        exact (E.writer_store st adr memory size hmem b).1 hw

end Execution

/-! ## A vector store below a field

A store of 32 bytes that starts below the field and reaches over it. -/

/-- A load of eight bytes at offset 24 of an object, after a store of `size` bytes at offset 8 and,
before that, one of the field itself. -/
def vectorGraph (size : ℕ) : MemoryGraph where
  mem := fun n => if n = 5 then .store 11 6 size else if n = 6 then .store 12 7 8 else .other
  parent := fun _ => .other
  baseAndOffset := fun n => if n = 11 then some (10, 8) else if n = 12 then some (10, 24) else none
  idealAllocation := fun _ => none
  maybeRaw := fun _ => false
  allocMemory := fun _ => 0
  initMemory := fun _ => none
  size := 0
  inputs := fun _ => []
  isCFG := fun _ => false
  pinned := fun _ => false
  isCon := fun _ => false
  isStartOrRoot := fun _ => false
  isTop := fun _ => false
  exactControl := fun _ => none
  dominates := fun _ _ => false
  flow := fun _ _ => False
  start := 0
  point := 0
  rank := fun _ => 0
  dominates_sound := nofun
  allocation_dominates := nofun
  init_dominates := nofun
  control_dominates := nofun
  rank_lt := nofun
  exactControl_lt := nofun

/-- The load. -/
def vectorLoad : MemAccess where
  node := 1
  adr := 12
  memory := 5
  size := 8
  size_pos := Nat.succ_pos 7
  isLoad := true
  aliasIdx := 0
  isRaw := false
  knownInstance := none
  addpBase := some 10
  callMayModify := fun _ => true
  memBarMayModify := fun _ => true
  modifies := fun _ => true

/-- The two stores of the graph. -/
theorem mem_vectorGraph {size n adr memory sz : ℕ}
    (h : (vectorGraph size).mem n = .store adr memory sz) :
    (n = 5 ∧ adr = 11 ∧ memory = 6 ∧ sz = size) ∨ (n = 6 ∧ adr = 12 ∧ memory = 7 ∧ sz = 8) := by
  rw [vectorGraph] at h
  dsimp only at h
  split at h
  · next hn =>
    injection h with hadr hmemory hsz
    exact .inl ⟨hn, hadr.symm, hmemory.symm, hsz.symm⟩
  · split at h
    · next hn =>
      injection h with hadr hmemory hsz
      exact .inr ⟨hn, hadr.symm, hmemory.symm, hsz.symm⟩
    · cases h

/-- There is nothing else in it. -/
theorem store_or_other {size n : ℕ} {m : MemNode} (h : (vectorGraph size).mem n = m) :
    (∃ adr memory sz, m = .store adr memory sz) ∨ m = .other := by
  rw [vectorGraph] at h
  dsimp only at h
  split at h
  · exact .inl ⟨_, _, _, h.symm⟩
  · split at h
    · exact .inl ⟨_, _, _, h.symm⟩
    · exact .inr h.symm

/-- Their addresses. -/
theorem baseAndOffset_vectorGraph {size adr base : ℕ} {offset : ℤ}
    (h : (vectorGraph size).baseAndOffset adr = some (base, offset)) :
    base = 10 ∧ ((adr = 11 ∧ offset = 8) ∨ (adr = 12 ∧ offset = 24)) := by
  rw [vectorGraph] at h
  dsimp only at h
  split at h
  · next hadr =>
    obtain ⟨rfl, rfl⟩ := Prod.mk.inj (Option.some.inj h)
    exact ⟨rfl, .inl ⟨hadr, rfl⟩⟩
  · split at h
    · next hadr =>
      obtain ⟨rfl, rfl⟩ := Prod.mk.inj (Option.some.inj h)
      exact ⟨rfl, .inr ⟨hadr, rfl⟩⟩
    · cases h

/-- What a pointer of the graph is off the start of the object. -/
def vectorDelta (n : ℕ) : ℤ := if n = 11 then 8 else if n = 12 then 24 else 0

/-- What a store of the graph writes. -/
def vectorWrites (size n : ℕ) (b : Byte) : Bool :=
  if n = 5 then b.1 == 1 && decide (8 ≤ b.2) && decide (b.2 < 8 + size)
  else n == 6 && b.1 == 1 && decide (24 ≤ b.2) && decide (b.2 < 24 + 8)

/-- And who wrote a byte last. -/
def vectorWriter (size n : ℕ) (b : Byte) : Option ℕ :=
  if n = 5 && vectorWrites size 5 b then some 5
  else if (n = 5 || n = 6) && vectorWrites size 6 b then some 6 else none

/-- The bytes that a store writes. -/
theorem vectorWrites_iff {size n adr memory sz : ℕ}
    (h : (vectorGraph size).mem n = .store adr memory sz) (b : Byte) :
    vectorWrites size n b = true ↔
      b.1 = 1 ∧ vectorDelta adr ≤ b.2 ∧ b.2 < vectorDelta adr + sz := by
  obtain ⟨rfl, rfl, -, rfl⟩ | ⟨rfl, rfl, -, rfl⟩ := mem_vectorGraph h
  · simp [vectorWrites, vectorDelta, and_assoc]
  · simp [vectorWrites, vectorDelta, and_assoc]

/-- The last store that writes a byte. -/
theorem vectorWriter_store {size n adr memory sz : ℕ}
    (h : (vectorGraph size).mem n = .store adr memory sz) (b : Byte) :
    (vectorWrites size n b = true → vectorWriter size n b = some n) ∧
      (¬ vectorWrites size n b = true → vectorWriter size n b = vectorWriter size memory b) := by
  obtain ⟨rfl, -, rfl, -⟩ | ⟨rfl, -, rfl, -⟩ := mem_vectorGraph h
  · exact ⟨fun hw => by simp [vectorWriter, hw], fun hw => by simp [vectorWriter, hw]⟩
  · exact ⟨fun hw => by simp [vectorWriter, hw], fun hw => by simp [vectorWriter, hw]⟩

/-- An execution of it. -/
def vectorExecution (size : ℕ) : Execution (vectorGraph size) vectorLoad where
  past := []
  run := .start
  block := fun _ => 1
  delta := vectorDelta
  object := fun _ => 2
  born := fun b => if b = 2 then 1 else 0
  newest := fun _ => 0
  writes := fun n => {b | vectorWrites size n b = true}
  writer := vectorWriter size
  born_object := by
    intro a ha
    obtain rfl := List.mem_singleton.1 ha
    rfl
  born_le := fun _ => Nat.le_refl 0
  born_adr := Nat.le_refl 0
  newest_exact := nofun
  newest_initial := fun _ _ => rfl
  newest_cfg := nofun
  newest_pinned := nofun
  newest_data := fun _ _ _ _ _ => Nat.zero_le _
  block_base := by
    intro adr base offset h
    obtain ⟨rfl, ⟨rfl, rfl⟩ | ⟨rfl, rfl⟩⟩ := baseAndOffset_vectorGraph h
    · exact ⟨rfl, rfl⟩
    · exact ⟨rfl, rfl⟩
  delta_base := by
    intro adr base offset h _
    obtain ⟨rfl, -⟩ := baseAndOffset_vectorGraph h
    rfl
  block_allocation := nofun
  block_con := nofun
  block_instance := nofun
  writes_store := fun _ _ _ _ h b => vectorWrites_iff h b
  writes_init := nofun
  writes_clear := nofun
  writer_store := fun _ _ _ _ h b => vectorWriter_store h b
  writer_init := nofun
  writer_memBar := by
    intro n p memory h
    obtain ⟨_, _, _, heq⟩ | heq := store_or_other h
    · cases heq
    · cases heq
  writer_clear := nofun
  writer_mergeMem := by
    intro n memoryAt h
    obtain ⟨_, _, _, heq⟩ | heq := store_or_other h
    · cases heq
    · cases heq

/-- There are no calls and no copies in it. -/
theorem mayModifySound_vectorExecution (size : ℕ) : (vectorExecution size).MayModifySound where
  call := nofun
  memBar := nofun
  modifies := nofun

/-- A store of eight bytes ends below the load. -/
theorem precise_vectorExecution :
    (vectorExecution 8).Precise ∧ (vectorLoad.findPreviousStore (vectorGraph 8)).1 = some 6 := by
  refine ⟨((vectorExecution 8).precise_iff (mayModifySound_vectorExecution 8)).2 ?_, by decide⟩
  rintro op - ⟨adr, memory, size, hst, hsize, -, -, -⟩
  obtain ⟨-, -, -, rfl⟩ | ⟨-, -, -, rfl⟩ := mem_vectorGraph hst
  · omega
  · omega

/-- One of thirty-two bytes writes all that is loaded; the search goes past it and returns the store
before it. -/
theorem not_precise_vectorExecution :
    (vectorExecution 32).MayModifySound ∧
      (vectorLoad.findPreviousStore (vectorGraph 32)).1 = some 6 ∧
      ¬ (vectorExecution 32).Precise := by
  refine ⟨mayModifySound_vectorExecution 32, by decide, fun ⟨hwrites, _⟩ => ?_⟩
  refine hwrites 5 (by decide) (1, 24) ⟨rfl, ?_, ?_⟩ ?_
  · decide
  · decide
  · exact (rfl : vectorWrites 32 5 (1, 24) = true)

end StackAllocation
