import StackAllocation.MemorySemantics

/-!
# What a scan leads to

A scan goes along a chain of memories that leave the field as it is (`FieldGraph.scan_sound`), if it
comes to no `ClearArray` of another object. The unique input of a `Phi` and a captured store are
what the field holds, so the loop of `value_from_mem` ends with what the field holds too
(`FieldGraph.searchMem_sound`).
-/

namespace StackAllocation

open Dominance

namespace FieldGraph

variable {G : FieldGraph}

/-- The scans of some paths of a `Phi` end at one state, at the `Phi` itself or at `top`. -/
def EndsAt (G : FieldGraph) (o : ℤ) (phi u : ℕ) (paths : List (Option ℕ)) : Prop :=
  ∀ i, some i ∈ paths → ∀ fuel x, G.scan o fuel i = some (some x) →
    G.isTop x = true ∨ x = phi ∨ x = u

/-- A search looks at the paths of a `Phi` one by one, for as long as they all lead to one state.
Where it makes a `Phi` of their values it looks at all of them; it does so if there is none yet. -/
def LooksAt (G : FieldGraph) (o : ℤ) (phi : ℕ) (inputs : List (Option ℕ)) (i : ℕ) : Prop :=
  (∃ before after u, inputs = before ++ some i :: after ∧ G.EndsAt o phi u before) ∨
    some i ∈ inputs ∧ G.samePhi phi o = none

/-- The nodes, with an offset, that a search may come to. -/
inductive Met (G : FieldGraph) (n₀ : ℕ) (o₀ : ℤ) : ℕ → ℤ → Prop
  | start : Met G n₀ o₀ n₀ o₀
  | next {n o m} (h : Met G n₀ o₀ n o) (hstep : G.scanStep o n = .next m) : Met G n₀ o₀ m o
  | stop {n o m} (h : Met G n₀ o₀ n o) (hstep : G.scanStep o n = .stop (some m)) : Met G n₀ o₀ m o
  | captured {n o m} (h : Met G n₀ o₀ n o) (hm : G.resolveInitialize o n = some m) : Met G n₀ o₀ m o
  | phi {n o r inputs i} (h : Met G n₀ o₀ n o) (hn : G.node n = .phi r inputs)
    (hi : G.LooksAt o n inputs i) : Met G n₀ o₀ i o
  | copy {n o ac d} (h : Met G n₀ o₀ n o) (hn : G.node n = .arrayCopy ac)
    (hself : ac.sameArray = true) (hshift : ac.shift = some d) : Met G n₀ o₀ ac.memory (d + o)

/-- What is looked at is on a path. -/
theorem LooksAt.mem {o : ℤ} {phi i : ℕ} {inputs : List (Option ℕ)} (h : G.LooksAt o phi inputs i) :
    some i ∈ inputs := by
  obtain ⟨before, after, u, rfl, -⟩ | ⟨hi, -⟩ := h
  · exact List.mem_append_right before List.mem_cons_self
  · exact hi

/-- Of what a search may come to, a `ClearArray` clears the allocation itself. -/
def OwnClears (G : FieldGraph) (n₀ : ℕ) (o₀ : ℤ) : Prop :=
  ∀ n o dest m, Met G n₀ o₀ n o → G.node n = .clearArray dest m →
    G.idealAllocation dest = some G.alloc

/-- A scan ends at a store only if it is one into the field. -/
def FieldStore (G : FieldGraph) (o : ℤ) (n : ℕ) : Prop :=
  ¬ G.IsSentinel n → ∀ s off a v m, G.node n = .store s off a v m → s = true ∧ off = o ∧ a = G.alloc

/-! ## A scan

Each step of a scan either goes along the relation `Same`, or stops. A step at a `ClearArray` is
where the condition on the graph is needed: it must be of this allocation. -/

section Scan

variable {o : ℤ} {n : ℕ}

/-- The search does not go past the clearing of its own object. -/
theorem stepThrough_self {a dest : ℕ} (h : G.idealAllocation dest = some a) :
    G.stepThrough a dest = none := by
  rw [stepThrough, h]
  exact if_pos rfl

/-- Where a scan stops at an array copy, it is one that the object is copied to. -/
theorem fieldStore_of_arrayCopy {ac : CopyNode} (h : G.node n = .arrayCopy ac) :
    G.FieldStore o n ∧ G.IsOwn n := by
  refine ⟨fun _ s off a v m hn => ?_, fun a m c st z hn => ?_⟩
  · rw [h] at hn
    cases hn
  · rw [h] at hn
    cases hn

/-- Or at the initialization of the object. -/
theorem fieldStore_of_initialize {m c st z}
    (h : G.node n = .initializeNode (some G.alloc) m c st z) :
    G.FieldStore o n ∧ G.IsOwn n := by
  refine ⟨fun _ s off a v m hn => ?_, fun a m c st z hn => ?_⟩
  · rw [h] at hn
    cases hn
  · rw [h] at hn
    injection hn with ha
    exact ha.symm

variable (F : SsaFlow G)
include F

/-- A step of a scan at a projection goes along the chain. -/
theorem projStep_sound {parent : ℕ} (hs : ¬ G.IsSentinel n) (hn : G.node n = .proj parent)
    (hown : G.IsOwn n) :
    (∀ m, G.projStep o n parent = .next m → G.Chain o n m ∧ G.IsOwn m) ∧
      (∀ x, G.projStep o n parent = .stop (some x) →
        G.Chain o n x ∧ G.IsOwn x ∧ G.FieldStore o x) ∧
      G.projStep o n parent ≠ .stop none := by
  have hparent : G.Chain o n parent := .single ⟨hs, .proj hn⟩
  have hps := F.parent_ne n parent hn
  have hon : ∀ m, G.Same o parent m → (∀ p, G.node parent ≠ .proj p) → ∀ m',
      ScanStep.next m = .next m' → G.Chain o n m' ∧ G.IsOwn m' := by
    intro m hsame hne m' heq
    obtain rfl := ScanStep.next.inj heq
    exact ⟨hparent.tail ⟨hps, hsame⟩, F.above_own parent m (.same hsame) hne⟩
  rw [projStep]
  split
  · next a m c st z hp =>
    split
    · next ha =>
      subst ha
      obtain ⟨hstore, howns⟩ := fieldStore_of_initialize (o := o) hp
      refine ⟨nofun, fun x heq => ?_, nofun⟩
      obtain rfl := Option.some.inj (ScanStep.stop.inj heq)
      exact ⟨hparent, howns, hstore⟩
    · next ha =>
      exact ⟨hon m (.otherInitialize hp ha) fun p h => ChainNode.noConfusion (hp.symm.trans h),
        nofun, nofun⟩
  · next m hp =>
    exact ⟨hon m (.call hp) fun p h => ChainNode.noConfusion (hp.symm.trans h), nofun, nofun⟩
  · next ac hp =>
    split
    · obtain ⟨hstore, howns⟩ := fieldStore_of_arrayCopy (o := o) hp
      refine ⟨nofun, fun x heq => ?_, nofun⟩
      obtain rfl := Option.some.inj (ScanStep.stop.inj heq)
      exact ⟨hparent, howns, hstore⟩
    · next hno =>
      exact ⟨hon _ (.arrayCopy hp (Bool.not_eq_true _ ▸ hno)) fun p h =>
        ChainNode.noConfusion (hp.symm.trans h), nofun, nofun⟩
  · next m copy hp =>
    cases copy with
    | none => exact ⟨hon m (.memBar hp) fun p h => ChainNode.noConfusion (hp.symm.trans h), nofun,
        nofun⟩
    | some ac =>
      cases ac with
      | none => exact absurd hp (F.scalar_replaceable parent m).2.2
      | some ac =>
        obtain ⟨c, hc⟩ := F.clone_node parent m ac hp
        obtain ⟨hstore, howns⟩ := fieldStore_of_arrayCopy (o := o) hc
        refine ⟨nofun, fun x heq => ?_, nofun⟩
        obtain rfl := Option.some.inj (ScanStep.stop.inj heq)
        exact ⟨hparent.tail ⟨hps, .clone hp⟩, howns, hstore⟩
  · refine ⟨fun m heq => ?_, nofun, nofun⟩
    obtain rfl := ScanStep.next.inj heq
    exact ⟨.refl, hown⟩

/-- A step of a scan goes along the chain. -/
theorem scanStep_sound (hown : G.IsOwn n)
    (hclear : ∀ dest m, G.node n = .clearArray dest m → G.idealAllocation dest = some G.alloc) :
    (∀ m, G.scanStep o n = .next m → G.Chain o n m ∧ G.IsOwn m) ∧
      (∀ x, G.scanStep o n = .stop (some x) → G.Chain o n x ∧ G.IsOwn x ∧ G.FieldStore o x) ∧
      G.scanStep o n ≠ .stop none := by
  rw [scanStep]
  split
  · next hs =>
    refine ⟨nofun, fun x heq => ?_, nofun⟩
    obtain rfl := Option.some.inj (ScanStep.stop.inj heq)
    exact ⟨.refl, hown, fun hns => absurd hs hns⟩
  next hs =>
  have hon : ∀ m, G.Same o n m → (∀ p, G.node n ≠ .proj p) → ∀ m',
      ScanStep.next m = .next m' → G.Chain o n m' ∧ G.IsOwn m' := by
    intro m hsame hne m' heq
    obtain rfl := ScanStep.next.inj heq
    exact ⟨.single ⟨hs, hsame⟩, F.above_own n m (.same hsame) hne⟩
  split
  · next m hn =>
    exact ⟨hon m (.mergeMem hn) fun p h => ChainNode.noConfusion (hn.symm.trans h), nofun, nofun⟩
  · next parent hn => exact projStep_sound F hs hn hown
  · next s off a v m hn =>
    split
    · next hfield =>
      refine ⟨nofun, fun x heq => ?_, nofun⟩
      obtain rfl := Option.some.inj (ScanStep.stop.inj heq)
      refine ⟨.refl, hown, fun _ s' off' a' v' m' hn' => ?_⟩
      rw [hn] at hn'
      injection hn' with hs' hoff ha
      exact ⟨hs' ▸ hfield.1, hoff ▸ hfield.2.1, ha ▸ hfield.2.2⟩
    · next hfield =>
      exact ⟨hon m (.store hn hfield) fun p h => ChainNode.noConfusion (hn.symm.trans h), nofun,
        nofun⟩
  · next dest m hn =>
    have ha := hclear dest m hn
    have hne : ∀ p, G.node n ≠ .proj p := fun p h => ChainNode.noConfusion (hn.symm.trans h)
    rw [clearStep, ha]
    dsimp only
    rw [stepThrough_self ha]
    dsimp only
    split
    · next i hi =>
      obtain ⟨_, _, _, _, hinit⟩ := F.initialization_node i hi
      obtain ⟨hstore, howns⟩ := fieldStore_of_initialize (o := o) hinit
      refine ⟨nofun, fun x heq => ?_, nofun⟩
      obtain rfl := Option.some.inj (ScanStep.stop.inj heq)
      exact ⟨.single ⟨hs, .clearOwn hn ha hi⟩, howns, hstore⟩
    · next hi =>
      refine ⟨nofun, fun x heq => ?_, nofun⟩
      obtain rfl := Option.some.inj (ScanStep.stop.inj heq)
      have hsame : G.Same o n G.allocMem := .clearOwn' hn ha hi
      exact ⟨.single ⟨hs, hsame⟩, F.above_own n _ (.same hsame) hne,
        fun hns => absurd (.inr rfl) hns⟩
  · next inSlice m hn =>
    cases inSlice with
    | true => exact absurd hn (F.scalar_replaceable n m).1
    | false =>
      exact ⟨hon m (.scMemProj hn) fun p h => ChainNode.noConfusion (hn.symm.trans h), nofun, nofun⟩
  · next inSlice m hn =>
    cases inSlice with
    | true => exact absurd hn (F.scalar_replaceable n m).2.1
    | false =>
      exact ⟨hon m (.strInflatedCopy hn) fun p h => ChainNode.noConfusion (hn.symm.trans h), nofun,
        nofun⟩
  · next hstore _ _ _ =>
    refine ⟨nofun, fun x heq => ?_, nofun⟩
    obtain rfl := Option.some.inj (ScanStep.stop.inj heq)
    exact ⟨.refl, hown, fun _ s off a v m hn => (hstore s off a v m hn).elim⟩

/-- A scan goes along the chain, and does not end with nothing. -/
theorem scan_sound {n₀ : ℕ} {o₀ : ℤ} (hclears : G.OwnClears n₀ o₀) {fuel : ℕ} {r : Option ℕ}
    (hmet : Met G n₀ o₀ n o) (hown : G.IsOwn n) (h : G.scan o fuel n = some r) :
    ∃ x, r = some x ∧ G.Chain o n x ∧ G.IsOwn x ∧ G.FieldStore o x ∧ Met G n₀ o₀ x o := by
  induction fuel generalizing n with
  | zero => cases h
  | succ fuel ih =>
    obtain ⟨hnext, hstop, hnone⟩ := scanStep_sound F (o := o) hown fun dest m =>
      hclears n o dest m hmet
    rw [scan] at h
    split at h
    · next result hstep =>
      obtain rfl := Option.some.inj h
      cases result with
      | none => exact absurd hstep hnone
      | some x =>
        obtain ⟨hchain, hownx, hstore⟩ := hstop x hstep
        exact ⟨x, rfl, hchain, hownx, hstore, hmet.stop hstep⟩
    · next m hstep =>
      obtain ⟨hchain, hownm⟩ := hnext m hstep
      obtain ⟨x, rfl, hchain', hrest⟩ := ih (hmet.next hstep) hownm h
      exact ⟨x, rfl, hchain.trans hchain', hrest⟩

end Scan

/-- Two scans of one path end at the same. -/
theorem scan_unique {o : ℤ} {fuel fuel' n : ℕ} {r r' : Option ℕ} (h : G.scan o fuel n = some r)
    (h' : G.scan o fuel' n = some r') : r = r' := by
  induction fuel generalizing fuel' n with
  | zero => cases h
  | succ fuel ih =>
    cases fuel' with
    | zero => cases h'
    | succ fuel' =>
      rw [scan] at h h'
      split at h
      · next hstep =>
        rw [hstep] at h'
        exact (Option.some.inj h).symm.trans (Option.some.inj h')
      · next hstep =>
        rw [hstep] at h'
        exact ih h h'

/-- Where the scan of one path ends. -/
theorem endsAt_singleton {o : ℤ} {fuel phi u i x : ℕ} (h : G.scan o fuel i = some (some x))
    (hx : G.isTop x = true ∨ x = phi ∨ x = u) : G.EndsAt o phi u [some i] := by
  intro j hj fuel' y hy
  obtain rfl := Option.some.inj (List.mem_singleton.1 hj)
  obtain rfl := Option.some.inj (scan_unique h hy)
  exact hx

/-! ## A captured store

The inputs of an initialization are in the order of their offsets, so the search stops where the
field would be. What it finds is the one store to the field, or it is known that there is none. -/

section Captured

variable {o : ℤ}

/-- The store that is found is the one into the field. -/
theorem capturedStore_mem {st : List CapturedInput} {x : ℕ}
    (h : G.capturedStore o st = some (some x)) : .store o G.fieldSize x ∈ st := by
  have hpos : G.fieldSize ≠ 0 := Nat.ne_of_gt G.fieldSize_pos
  induction st with
  | nil => cases h
  | cons input st ih =>
    cases input with
    | zeroMemory => exact List.mem_cons_of_mem _ (ih h)
    | dead => cases h
    | store off size y =>
      rw [capturedStore] at h
      split at h
      · split at h
        · cases h
        · cases h
      · split at h
        · split at h
          · cases h
          · exact List.mem_cons_of_mem _ (ih h)
        · split at h
          · cases h
          · next hsize =>
            obtain rfl := Option.some.inj (Option.some.inj h)
            have hoff : off = o := by omega
            have heq : size = G.fieldSize := by
              by_contra hne
              exact hsize ⟨hpos, hne⟩
            rw [hoff, heq]
            exact List.mem_cons_self

/-- If none is found, none is into the field. -/
theorem capturedStore_apart {st : List CapturedInput}
    (hsorted : st.Pairwise fun x y => ∀ (off : ℤ) (size k : ℕ) (off' : ℤ) (size' k' : ℕ),
      x = .store off size k → y = .store off' size' k' → off ≤ off')
    (hsize : ∀ (off : ℤ) (size x : ℕ), .store off size x ∈ st → size ≤ 8)
    (h : G.capturedStore o st = some none) (off : ℤ) (size x : ℕ) (hx : .store off size x ∈ st) :
    o + G.fieldSize ≤ off ∨ off + size ≤ o := by
  have hpos : G.fieldSize ≠ 0 := Nat.ne_of_gt G.fieldSize_pos
  induction st with
  | nil => exact absurd hx List.not_mem_nil
  | cons input st ih =>
    rw [List.pairwise_cons] at hsorted
    have hrest := ih hsorted.2 fun off size x hx => hsize off size x (List.mem_cons_of_mem _ hx)
    cases input with
    | zeroMemory =>
      obtain heq | hx := List.mem_cons.1 hx
      · cases heq
      · exact hrest h hx
    | dead => cases h
    | store off' size' y =>
      rw [capturedStore] at h
      have hhead := hsize off' size' y List.mem_cons_self
      have hle : off' ≤ off := by
        obtain heq | hx := List.mem_cons.1 hx
        · injection heq with hoff
          exact Int.le_of_eq hoff.symm
        · exact hsorted.1 _ hx off' size' y off size x rfl rfl
      split at h
      · split at h
        · cases h
        · exact .inl (by omega)
      · split at h
        · split at h
          · cases h
          · next hbefore =>
            obtain heq | hx := List.mem_cons.1 hx
            · injection heq with hoff hsz
              subst hoff hsz
              refine .inr ?_
              by_contra hlt
              exact hbefore ⟨hpos, by omega, by omega⟩
            · exact hrest h hx
        · split at h
          · cases h
          · cases h

/-- What `find_captured_store` returns for the allocation's `Initialize`. -/
theorem findCapturedStore_sound (F : SsaFlow G) {n m z y : ℕ} {c : Bool} {st : List CapturedInput}
    (hn : G.node n = .initializeNode (some G.alloc) m c st z)
    (h : G.findCapturedStore c st z o = some y) :
    c = false ∧ (.store o G.fieldSize y ∈ st ∨ y = z ∧ G.Same o n z) := by
  rw [findCapturedStore] at h
  split at h
  · cases h
  next hcond =>
  rw [Bool.or_eq_true, Bool.or_eq_true, not_or, not_or, Bool.not_eq_true] at hcond
  obtain rfl := hcond.1.1
  obtain ⟨found, hfound, rfl⟩ := Option.map_eq_some_iff.1 h
  refine ⟨rfl, ?_⟩
  cases found with
  | some x => exact .inl (capturedStore_mem hfound)
  | none =>
    refine .inr ⟨rfl, .uncaptured hn fun off size x hx => ?_⟩
    exact capturedStore_apart (F.captured_sorted n _ m false st z hn)
      (fun off size x hx => (F.captured_store n _ m false st z off size x hn hx).1) hfound off size
        x hx

/-- A store that the `Initialize` of the allocation captured. -/
theorem capturedNode (F : SsaFlow G) {n x m z : ℕ} {st : List CapturedInput}
    (hn : G.node n = .initializeNode (some G.alloc) m false st z)
    (hx : .store o G.fieldSize x ∈ st) :
    ¬ G.IsSentinel x ∧ ∃ s off a w m', G.node x = .store s off a w m' ∧ G.valueIn x = some w := by
  obtain ⟨-, hvalue, hs⟩ := F.captured_store n _ m false st z o _ x hn hx
  refine ⟨hs, ?_⟩
  obtain ⟨w, hw⟩ := Option.isSome_iff_exists.1 hvalue
  have hw' := hw
  rw [valueIn] at hw'
  split at hw'
  · next s off a w' m' hnode =>
    obtain rfl := Option.some.inj hw'
    exact ⟨s, off, a, w', m', hnode, hw⟩
  · cases hw'

end Captured

/-! ## The loop of `value_from_mem`

From one turn to the next the field holds the same. At a `Phi` all paths lead to one state or back
to the `Phi`, so the step past it is right as well. -/

section Loop

variable (F : SsaFlow G) {n₀ : ℕ} {o₀ : ℤ} (hclears : G.OwnClears n₀ o₀) {fuel : ℕ} {o : ℤ} {n : ℕ}

/-- What the field holds in `m` is what it holds in `n`, and the search may come to `m` too. -/
structure Leads (G : FieldGraph) (n₀ : ℕ) (o₀ : ℤ) (o : ℤ) (n m : ℕ) : Prop where
  reads : ∀ T v, Reads G T m o v → Reads G T n o v
  met : Met G n₀ o₀ m o
  own : G.IsOwn m

/-- `top` is one node. -/
theorem eq_top_of_isTop (h : G.isTop n = true) : G.node n = .top := by
  rw [isTop] at h
  split at h
  · next hn => exact hn
  · cases h

/-- The paths that are left are looked at, if those before them lead to what is known to be the
unique input so far. -/
def PathsMet (G : FieldGraph) (n₀ : ℕ) (o₀ : ℤ) (o : ℤ) (phi : ℕ) (unique : Option ℕ)
    (rest : List (Option ℕ)) : Prop :=
  ∀ before i after w, rest = before ++ some i :: after → (∀ m, unique = some m → m = w) →
    G.EndsAt o phi w before → Met G n₀ o₀ i o ∧ G.IsOwn i

/-- The first path is looked at. -/
theorem PathsMet.head {phi i : ℕ} {unique : Option ℕ} {rest : List (Option ℕ)}
    (h : PathsMet G n₀ o₀ o phi unique (some i :: rest)) : Met G n₀ o₀ i o ∧ G.IsOwn i :=
  h [] i rest (unique.getD 0) rfl (fun _ hm => hm ▸ rfl) fun _ hj => absurd hj List.not_mem_nil

/-- So is the next one, if the first leads to the unique input. -/
theorem PathsMet.tail {phi : ℕ} {unique unique' input : Option ℕ} {rest : List (Option ℕ)}
    (h : PathsMet G n₀ o₀ o phi unique (input :: rest))
    (hsame : ∀ m, unique = some m → unique' = some m)
    (hends : ∀ w, (∀ m, unique' = some m → m = w) → G.EndsAt o phi w [input]) :
    PathsMet G n₀ o₀ o phi unique' rest := by
  intro before i after w hsplit hw hbefore
  refine h (input :: before) i after w (congrArg (input :: ·) hsplit)
    (fun m hm => hw m (hsame m hm)) fun j hj => ?_
  obtain hj | hj := List.mem_cons.1 hj
  · exact hends w hw j (List.mem_singleton.2 hj)
  · exact hbefore j hj

include F hclears

/-- The paths of a `Phi` that has a unique input lead to it, or back. -/
theorem uniqueInput_sound {phi : ℕ} {rest : List (Option ℕ)} {unique : Option ℕ} {u : ℕ}
    (hrest : PathsMet G n₀ o₀ o phi unique rest)
    (hunique : ∀ m, unique = some m → Met G n₀ o₀ m o ∧ G.IsOwn m)
    (h : G.uniqueInput fuel o phi rest unique = some (some u)) :
    (∀ m, unique = some m → m = u) ∧ (Met G n₀ o₀ u o ∧ G.IsOwn u) ∧ ∀ i, some i ∈ rest →
      (∃ t, G.Chain o i t ∧ G.node t = .top) ∨ G.Chain o i phi ∨ G.Chain o i u := by
  induction rest generalizing unique with
  | nil =>
    obtain rfl := Option.some.inj h
    exact ⟨fun m heq => (Option.some.inj heq).symm, hunique u rfl,
      fun _ hi => absurd hi List.not_mem_nil⟩
  | cons input rest ih =>
    cases input with
    | none =>
      have htail : PathsMet G n₀ o₀ o phi unique rest :=
        hrest.tail (fun _ hm => hm) fun _ _ j hj => absurd (List.mem_singleton.1 hj) nofun
      obtain ⟨heq, hu, hall⟩ := ih htail hunique h
      exact ⟨heq, hu, fun i hi => hall i ((List.mem_cons.1 hi).resolve_left nofun)⟩
    | some i =>
      obtain ⟨hmet, hown⟩ := hrest.head
      rw [uniqueInput] at h
      -- what is known of the rest, and what of the path at hand
      have hfinish : ∀ {w : Option ℕ}, (∀ m, w = some m → Met G n₀ o₀ m o ∧ G.IsOwn m) →
          (∀ m, unique = some m → w = some m) →
          (∀ k, (∀ m, w = some m → m = k) → G.EndsAt o phi k [some i]) →
          ((∃ t, G.Chain o i t ∧ G.node t = .top) ∨ G.Chain o i phi ∨ ∃ m, w = some m ∧
            G.Chain o i m) →
          G.uniqueInput fuel o phi rest w = some (some u) →
          (∀ m, unique = some m → m = u) ∧ (Met G n₀ o₀ u o ∧ G.IsOwn u) ∧
            ∀ k, some k ∈ some i :: rest →
              (∃ t, G.Chain o k t ∧ G.node t = .top) ∨ G.Chain o k phi ∨ G.Chain o k u := by
        intro w hw hsame hends hpath hrun
        obtain ⟨heq, hu, hall⟩ := ih (hrest.tail hsame hends) hw hrun
        refine ⟨fun m hm => heq m (hsame m hm), hu, fun k hk => ?_⟩
        obtain hk | hk := List.mem_cons.1 hk
        · obtain rfl := Option.some.inj hk
          refine hpath.imp_right (Or.imp_right ?_)
          rintro ⟨m, hm, hchain⟩
          exact heq m hm ▸ hchain
        · exact hall k hk
      split at h
      · cases h
      · next hscan =>
        obtain ⟨x, heq, -⟩ := scan_sound F hclears hmet hown hscan
        cases heq
      · next x hscan =>
        obtain ⟨x', heq, hchain, hownx, -, hmetx⟩ := scan_sound F hclears hmet hown hscan
        obtain rfl := Option.some.inj heq
        have hends : ∀ {k}, G.isTop x = true ∨ x = phi ∨ x = k → G.EndsAt o phi k [some i] :=
          endsAt_singleton hscan
        split at h
        · next hback =>
          refine hfinish hunique (fun _ hm => hm) (fun _ _ => hends (hback.imp_right Or.inl)) ?_ h
          obtain htop | rfl := hback
          · exact .inl ⟨x, hchain, eq_top_of_isTop htop⟩
          · exact .inr (.inl hchain)
        · split at h
          · refine hfinish ?_ (fun _ hm => by cases hm) (fun k hk => hends (.inr (.inr (hk x rfl))))
              (.inr (.inr ⟨x, rfl, hchain⟩)) h
            intro m hm
            obtain rfl := Option.some.inj hm
            exact ⟨hmetx, hownx⟩
          · next m =>
            split at h
            · next hm =>
              exact hfinish hunique (fun _ hm => hm)
                (fun k hk => hends (.inr (.inr (hm ▸ hk m rfl))))
                (.inr (.inr ⟨m, rfl, hm ▸ hchain⟩)) h
            · cases h

/-- Where the loop goes on. -/
theorem searchStep_goOn {m : ℕ} (hmet : Met G n₀ o₀ n o) (hown : G.IsOwn n)
    (h : G.searchStep fuel o n = some (.goOn m)) : Leads G n₀ o₀ o n m := by
  rw [searchStep] at h
  split at h
  · cases h
  next hs =>
  split at h
  · next a memory c st z hn =>
    obtain rfl := hown a memory c st z hn
    split at h
    · cases h
    · next y hy =>
      split at h
      · cases h
      · next hvalue =>
        obtain rfl := SearchStep.goOn.inj (Option.some.inj h)
        obtain ⟨rfl, hstore | ⟨rfl, hsame⟩⟩ := findCapturedStore_sound F hn hy
        · exact absurd (F.captured_store n _ memory false st z o _ y hn hstore).2.1 hvalue
        · refine ⟨fun T v hv => .chain (.single ⟨hs, hsame⟩) hv, hmet.captured ?_, ?_⟩
          · rw [resolveInitialize, hn]
            exact hy
          · exact F.above_own n y (.same hsame) fun p hp => ChainNode.noConfusion (hn.symm.trans hp)
  · cases h
  · next r inputs hn =>
    obtain ⟨unique, hunique, hstep⟩ := Option.map_eq_some_iff.1 h
    cases unique with
    | none => cases hstep
    | some u =>
      obtain rfl := SearchStep.goOn.inj hstep
      have hinput : PathsMet G n₀ o₀ o n none inputs := by
        intro before i after w hsplit _ hbefore
        have hi : G.LooksAt o n inputs i := .inl ⟨before, after, w, hsplit, hbefore⟩
        exact ⟨hmet.phi hn hi, F.above_own n i (.phi hn hi.mem) fun p hp =>
          ChainNode.noConfusion (hn.symm.trans hp)⟩
      obtain ⟨-, hu, hpaths⟩ := uniqueInput_sound F hclears hinput (fun _ h => by cases h) hunique
      exact ⟨fun T v hv => .unique hs hn hpaths hv, hu.1, hu.2⟩
  · cases h
  · obtain rfl := SearchStep.goOn.inj (Option.some.inj h)
    exact ⟨fun _ _ hv => hv, hmet, hown⟩

omit hclears in
/-- Where it ends. -/
theorem searchStep_done {x : ℕ} (hown : G.IsOwn n)
    (h : G.searchStep fuel o n = some (.done (some x))) : x = n ∨ ¬ G.IsSentinel n ∧
      ∃ m st z, G.node n = .initializeNode (some G.alloc) m false st z ∧
        .store o G.fieldSize x ∈ st := by
  rw [searchStep] at h
  split at h
  · exact .inl (Option.some.inj (SearchStep.done.inj (Option.some.inj h))).symm
  next hs =>
  split at h
  · next a memory c st z hn =>
    obtain rfl := hown a memory c st z hn
    split at h
    · cases h
    · next y hy =>
      split at h
      · next hvalue =>
        obtain rfl := Option.some.inj (SearchStep.done.inj (Option.some.inj h))
        obtain ⟨rfl, hstore | ⟨rfl, -⟩⟩ := findCapturedStore_sound F hn hy
        · exact .inr ⟨hs, memory, st, z, hn, hstore⟩
        · rw [valueIn, F.zeroMemory_proj n _ memory false st y hn] at hvalue
          cases hvalue
      · cases h
  · exact .inl (Option.some.inj (SearchStep.done.inj (Option.some.inj h))).symm
  · obtain ⟨unique, -, hstep⟩ := Option.map_eq_some_iff.1 h
    cases unique with
    | none => exact .inl (Option.some.inj (SearchStep.done.inj hstep)).symm
    | some u => cases hstep
  · exact .inl (Option.some.inj (SearchStep.done.inj (Option.some.inj h))).symm
  · cases h

/-- What the loop ends with: a node that the field's memory leads to, or a store that the
`Initialize` there captured. -/
theorem searchMem_sound {rounds : ℕ} {visited : List ℕ} {mem x : ℕ} (hmet : Met G n₀ o₀ mem o)
    (hown : G.IsOwn mem) (h : G.searchMem fuel o rounds visited mem = some (some x)) :
    ∃ y, Leads G n₀ o₀ o mem y ∧ G.FieldStore o y ∧ (x = y ∨ ¬ G.IsSentinel y ∧
      ∃ m st z, G.node y = .initializeNode (some G.alloc) m false st z ∧
        .store o G.fieldSize x ∈ st) := by
  induction rounds generalizing visited mem with
  | zero => cases h
  | succ rounds ih =>
    rw [searchMem] at h
    split at h
    · cases h
    split at h
    · cases h
    · cases h
    next y hscan =>
    obtain ⟨y', heq, hchain, howny, hstore, hmety⟩ := scan_sound F hclears hmet hown hscan
    obtain rfl := Option.some.inj heq
    have hleads : Leads G n₀ o₀ o mem y := ⟨fun _ _ hv => .chain hchain hv, hmety, howny⟩
    split at h
    · cases h
    · next result hstep =>
      obtain rfl := Option.some.inj h
      exact ⟨y, hleads, hstore, searchStep_done F howny hstep⟩
    · next mem' hstep =>
      have hgo := searchStep_goOn F hclears hmety howny hstep
      obtain ⟨y', hy', hrest⟩ := ih hgo.met hgo.own h
      have hreads : ∀ T v, Reads G T y' o v → Reads G T mem o v :=
        fun T v hv => hleads.reads T v (hgo.reads T v (hy'.reads T v hv))
      exact ⟨y', ⟨hreads, hy'.met, hy'.own⟩, hrest⟩

end Loop

end FieldGraph

end StackAllocation
