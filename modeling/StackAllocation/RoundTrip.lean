import Mathlib.Algebra.Group.Nat.Defs
import Mathlib.Data.Int.Notation
import Mathlib.Data.List.Forall2
import Mathlib.Data.List.Nodup
import Mathlib.Data.List.Perm.Subperm
import StackAllocation.DebugInfo

/-!
# Decoding undoes encoding

What `readFrom` gets out of the code words of `writeOn` is what was written:
the same values, and for every object that was written one object of the same
class with the same id, klass and fields, and for a stack object the same place
and field length (`read_from_write_on`). Shared objects are read as one object,
and cycles are closed again.

The reader's pool grows in the order in which the writer meets the objects, so
the writer's list of visited objects tells which object each place of the
reader's pool was read for.
-/

namespace StackAllocation

section

variable {β Loc Jobject Oop : Type} (S : DebugStreams β Loc Jobject Oop)

/-- `v'` is what a reader makes of `v`; `visited` has the objects in the order in
which they were written. -/
inductive ValueMatches (visited : List ℕ) :
    ScopeValue Loc Jobject Oop → ScopeValue Loc Jobject Oop → Prop where
  | location (loc) : ValueMatches visited (.location loc) (.location loc)
  | constantInt (n) : ValueMatches visited (.constantInt n) (.constantInt n)
  | constantLong (n) : ValueMatches visited (.constantLong n) (.constantLong n)
  | constantDouble (d) : ValueMatches visited (.constantDouble d) (.constantDouble d)
  | constantOop (h) : ValueMatches visited (.constantOopWrite h) (.constantOopRead (S.resolve h))
  | marker : ValueMatches visited .marker .marker
  | object (r i) : visited[i]? = some r → ValueMatches visited (.object r) (.object i)

/-- `o'` is what a reader makes of the description `o`. -/
structure ObjectMatches (visited : List ℕ) (o o' : ObjectValue Loc Jobject Oop) : Prop where
  kind : o'.kind = o.kind
  id : o'.id = o.id
  klass : Option.Rel (ValueMatches S visited) o.klass o'.klass
  fieldValues : List.Forall₂ (ValueMatches S visited) o.fieldValues o'.fieldValues
  location : o.kind = .stackObject → o'.location = o.location
  fieldLength : o.kind = .stackObject →
    Option.Rel (ValueMatches S visited) o.fieldLength o'.fieldLength

variable {S}

/-- A value that matches one that was written does so with more objects visited: their numbers in
the pool that is read stay. -/
theorem ValueMatches.mono {visited visited' : List ℕ} (hle : visited <+: visited')
    {v v' : ScopeValue Loc Jobject Oop} (h : ValueMatches S visited v v') :
    ValueMatches S visited' v v' := by
  cases h with
  | location loc => exact .location loc
  | constantInt n => exact .constantInt n
  | constantLong n => exact .constantLong n
  | constantDouble d => exact .constantDouble d
  | constantOop h => exact .constantOop h
  | marker => exact .marker
  | object r i hr =>
    obtain ⟨added, rfl⟩ := hle
    refine .object r i ?_
    rw [List.getElem?_append_left (List.getElem?_eq_some_iff.mp hr).1]
    exact hr

/-- The same for a value that may be absent. -/
theorem ValueMatches.mono_pointer {visited visited' : List ℕ} (hle : visited <+: visited')
    {v v' : Option (ScopeValue Loc Jobject Oop)} (h : Option.Rel (ValueMatches S visited) v v') :
    Option.Rel (ValueMatches S visited') v v' := by
  cases h with
  | some hv => exact .some (hv.mono hle)
  | none => exact .none

/-- And for the fields of an object. -/
theorem ObjectMatches.mono {visited visited' : List ℕ} (hle : visited <+: visited')
    {o o' : ObjectValue Loc Jobject Oop} (h : ObjectMatches S visited o o') :
    ObjectMatches S visited' o o' where
  kind := h.kind
  id := h.id
  klass := ValueMatches.mono_pointer hle h.klass
  fieldValues := h.fieldValues.imp fun _ _ => ValueMatches.mono hle
  location := h.location
  fieldLength hk := ValueMatches.mono_pointer hle (h.fieldLength hk)

end

/-! ## Pools

The pool is as the constructors leave it, with ids that are unique. The reader has a pool of its
own, in which the objects are in the order in which they were visited. -/

/-- A reference of the value, if it is one, is into a pool of `n` objects. -/
def ScopeValue.InPool {Loc Jobject Oop : Type} (n : ℕ) : ScopeValue Loc Jobject Oop → Prop
  | .object r => r < n
  | _ => True

/-- The value is not an oop constant as the VM reads it. -/
def ScopeValue.Writable {Loc Jobject Oop : Type} : ScopeValue Loc Jobject Oop → Prop
  | .constantOopRead _ => False
  | _ => True

/-- `is_constant_oop()`. -/
def ScopeValue.IsConstantOop {Loc Jobject Oop : Type} : ScopeValue Loc Jobject Oop → Prop
  | .constantOopWrite _ => True
  | .constantOopRead _ => True
  | _ => False

/-- A pool of object descriptions as the constructors leave them: ids are
unique, the klass is a constant oop, a stack object has a place and a constant
field length, references stay in the pool, and a field count fits an int. -/
structure ObjectPool (Loc Jobject Oop : Type) : Type where
  /-- the descriptions -/
  objects : List (ObjectValue Loc Jobject Oop)
  /-- an id belongs to one object -/
  ids_nodup : (objects.map ObjectValue.id).Nodup
  /-- the klass is a java mirror -/
  klass_constant : ∀ o ∈ objects, ∃ v, o.klass = some v ∧ v.IsConstantOop
  /-- a `GrowableArray` is indexed by ints -/
  length_lt : ∀ o ∈ objects, o.fieldValues.length < 2 ^ 31
  /-- references are to objects of the pool -/
  inPool : ∀ o ∈ objects, ∀ v ∈ o.fieldValues, v.InPool objects.length
  /-- what the constructor of `StackObjectValue` is given -/
  stackObject : ∀ o ∈ objects, o.kind = .stackObject →
    ∃ loc n, o.location = some loc ∧ o.fieldLength = some (.constantInt n)

/-- No oop constant of the pool is one that the VM has read. -/
def ObjectPool.Writable {Loc Jobject Oop : Type} (pool : ObjectPool Loc Jobject Oop) : Prop :=
  ∀ o ∈ pool.objects, (∀ v ∈ o.klass, v.Writable) ∧ ∀ v ∈ o.fieldValues, v.Writable

/-- The visited objects are objects of the pool, each visited once. -/
structure Visited {Loc Jobject Oop : Type} (pool : ObjectPool Loc Jobject Oop)
    (visited : List ℕ) : Prop where
  nodup : visited.Nodup
  lt : ∀ r ∈ visited, r < pool.objects.length

section

variable {β Loc Jobject Oop : Type} {S : DebugStreams β Loc Jobject Oop}
  {pool : ObjectPool Loc Jobject Oop}

/-- No more objects are visited than there are, which bounds the depth of the recursion. -/
theorem Visited.length_le {visited : List ℕ} (h : Visited pool visited) :
    visited.length ≤ pool.objects.length := by
  have hsub : visited ⊆ List.range pool.objects.length := fun r hr => List.mem_range.mpr (h.lt r hr)
  simpa using (List.Nodup.subperm h.nodup hsub).length_le

/-- An object that was not visited yet is. -/
theorem Visited.append_singleton {visited : List ℕ} (h : Visited pool visited) {r : ℕ}
    (hr : r ∉ visited) (hlt : r < pool.objects.length) : Visited pool (visited ++ [r]) where
  nodup := List.nodup_append.mpr ⟨h.nodup, List.nodup_singleton r, by
    intro a ha b hb
    rintro rfl
    exact hr ((List.mem_singleton.mp hb) ▸ ha)⟩
  lt := by
    intro a ha
    rcases List.mem_append.mp ha with ha | ha
    · exact h.lt a ha
    · rw [List.mem_singleton.mp ha]
      exact hlt

/-- The ids at which a reader finds the visited objects. -/
def visitedIds (pool : ObjectPool Loc Jobject Oop) (visited : List ℕ) : List (Option JInt) :=
  visited.map fun r => pool.objects[r]?.map ObjectValue.id

/-- The reader's pool has the visited objects, by id. -/
def Registered (pool : ObjectPool Loc Jobject Oop) (visited : List ℕ)
    (objPool : List (ObjectValue Loc Jobject Oop)) : Prop :=
  objPool.map (fun o => some o.id) = visitedIds pool visited

/-- The pool that is read has as many objects as were visited. -/
theorem Registered.length_eq {visited : List ℕ} {objPool : List (ObjectValue Loc Jobject Oop)}
    (h : Registered pool visited objPool) : objPool.length = visited.length := by
  simpa [visitedIds] using congrArg List.length h

/-- The objects the reader adds while the writer visits `added`. -/
def NewObjects (S : DebugStreams β Loc Jobject Oop) (pool : ObjectPool Loc Jobject Oop)
    (visited : List ℕ) : List ℕ → List (ObjectValue Loc Jobject Oop) → Prop :=
  List.Forall₂ fun r o' => ∃ o, pool.objects[r]? = some o ∧ ObjectMatches S visited o o'

/-- What was read stays right when more is. -/
theorem NewObjects.mono {visited visited' : List ℕ} (hle : visited <+: visited') {added : List ℕ}
    {objs : List (ObjectValue Loc Jobject Oop)} (h : NewObjects S pool visited added objs) :
    NewObjects S pool visited' added objs :=
  List.Forall₂.imp (fun _ _ ⟨o, ho, hm⟩ => ⟨o, ho, hm.mono hle⟩) h

/-- The objects that are read now are put behind those that were read before. -/
theorem Registered.append {visited visited' added : List ℕ}
    {objPool objs : List (ObjectValue Loc Jobject Oop)}
    (h : Registered pool visited objPool) (hnew : NewObjects S pool visited' added objs) :
    Registered pool (visited ++ added) (objPool ++ objs) := by
  have hids : objs.map (fun o => some o.id) = visitedIds pool added := by
    induction hnew with
    | nil => rfl
    | cons hd _ ih =>
      obtain ⟨o, ho, hm⟩ := hd
      rw [List.map_cons, ih, visitedIds, visitedIds, List.map_cons, ho, hm.id]
      rfl
  rw [Registered, List.map_append, hids, h, visitedIds, visitedIds, visitedIds, List.map_append]

/-- A search finds the only element with the property. -/
theorem find?_eq_some_of_unique {α : Type} {p : α → Bool} {l : List α} {a : α} (ha : a ∈ l)
    (hp : p a = true) (huniq : ∀ b ∈ l, p b = true → b = a) : l.find? p = some a := by
  rcases hfind : l.find? p with _ | b
  · rw [List.find?_eq_none] at hfind
    exact absurd hp (hfind a ha)
  · rw [huniq b (List.mem_of_find?_eq_some hfind) (List.find?_some hfind)]

/-- The reader finds a visited object by its id. -/
theorem cachedObject_eq {visited : List ℕ} (hv : Visited pool visited)
    {objPool : List (ObjectValue Loc Jobject Oop)} (hreg : Registered pool visited objPool)
    {r i : ℕ} (hi : visited[i]? = some r) {o : ObjectValue Loc Jobject Oop}
    (ho : pool.objects[r]? = some o) : cachedObject o.id objPool = some i := by
  have hget : ∀ j : ℕ, objPool[j]?.map ObjectValue.id =
      (visited[j]?.bind fun r => pool.objects[r]?.map ObjectValue.id) := by
    intro j
    have hj := congrArg (fun l => l[j]?) hreg
    simp only [visitedIds, List.getElem?_map] at hj
    rcases hP : objPool[j]? with _ | o'
    · rcases hV : visited[j]? with _ | r'
      · rfl
      · rw [hP, hV] at hj
        cases hj
    · rcases hV : visited[j]? with _ | r'
      · rw [hP, hV] at hj
        cases hj
      · rw [hP, hV] at hj
        exact Option.some.inj hj
  have hlt : i < visited.length := (List.getElem?_eq_some_iff.mp hi).1
  refine find?_eq_some_of_unique ?_ ?_ ?_
  · rw [List.mem_reverse, List.mem_range, hreg.length_eq]
    exact hlt
  · rw [beq_iff_eq, hget i, hi, Option.bind_some, ho]
    rfl
  · intro j _ hp
    rw [beq_iff_eq, hget j] at hp
    obtain ⟨r', hr', hid⟩ := Option.bind_eq_some_iff.mp hp
    obtain ⟨o', ho', hid'⟩ := Option.map_eq_some_iff.mp hid
    -- ids are unique in the pool, and an object is visited once
    have hrr : r' = r := by
      refine (List.getElem?_inj ?_ pool.ids_nodup).mp ?_
      · rw [List.length_map]
        exact (List.getElem?_eq_some_iff.mp ho').1
      · rw [List.getElem?_map, List.getElem?_map, ho', ho]
        exact congrArg some hid'
    exact ((List.getElem?_inj hlt hv.nodup).mp (by rw [hi, hr', hrr])).symm

/-! ## The round trip

One scope value: the induction is on the recursion bound, and the bound
suffices because every object that is written in full adds to the visited
objects, which are at most those of the pool. -/

/-- Writing `v` took the stream from `s` to `s'`; it added the code words `bytes`
and visited the objects `added`, and a reader that has the visited objects
registered gets `v` back from `bytes`. -/
structure RoundTrip (S : DebugStreams β Loc Jobject Oop) (pool : ObjectPool Loc Jobject Oop)
    (fuel : ℕ) (v : ScopeValue Loc Jobject Oop) (s s' : WriteStream β) (bytes : List β)
    (added : List ℕ) : Prop where
  out : s'.out = s.out ++ bytes
  visited : s'.visited = s.visited ++ added
  valid : Visited pool s'.visited
  read : ∀ (rest : List β) (objPool : List (ObjectValue Loc Jobject Oop)),
    Registered pool s.visited objPool →
    ∃ v' objs, readFrom S fuel ⟨bytes ++ rest, objPool⟩ = .ok (v', ⟨rest, objPool ++ objs⟩) ∧
      ValueMatches S s'.visited v v' ∧ NewObjects S pool s'.visited added objs

/-- What a scope value must satisfy to be written: it is not an oop the VM has
read, and the objects not visited yet are fewer than the recursion bound. -/
structure CanWrite (pool : ObjectPool Loc Jobject Oop) (fuel : ℕ) (visited : List ℕ)
    (v : ScopeValue Loc Jobject Oop) : Prop where
  valid : Visited pool visited
  writable : v.Writable
  inPool : v.InPool pool.objects.length
  fuel_lt : pool.objects.length < fuel + visited.length

/-- What a codec has written it reads back, and leaves what comes after it. -/
@[simp] theorem get_write {α : Type} (c : Codec β α) (a : α) (rest : List β)
    (objPool : List (ObjectValue Loc Jobject Oop)) :
    ReadStream.get c ⟨c.write a ++ rest, objPool⟩ = .ok (a, ⟨rest, objPool⟩) := by
  simp only [ReadStream.get, c.read_write]

@[simp] theorem ok_bind {ε α γ : Type} (a : α) (f : α → Except ε γ) :
    (Except.ok a >>= f) = f a := rfl

/-- A value without references is written as its code and one datum. -/
theorem leaf_roundTrip {fuel : ℕ} {v v' : ScopeValue Loc Jobject Oop} {s : WriteStream β}
    {c : Code} {ws : List β} (hvalid : Visited pool s.visited)
    (hread : ∀ rest objPool, readFrom S fuel ⟨S.int.write c.toInt ++ (ws ++ rest), objPool⟩ =
      .ok (v', ⟨rest, objPool⟩))
    (hmatch : ValueMatches S s.visited v v') :
    RoundTrip S pool fuel v s ((s.putCode S c).put ws) (S.int.write c.toInt ++ ws) [] where
  out := by simp only [WriteStream.put, WriteStream.putCode, List.append_assoc]
  visited := by simp only [WriteStream.put, WriteStream.putCode, List.append_nil]
  valid := hvalid
  read rest objPool _ := by
    refine ⟨v', [], ?_, hmatch, List.Forall₂.nil⟩
    rw [List.append_assoc, hread, List.append_nil]

/-- To change the element behind the first ones. -/
theorem modify_append_cons {α : Type} (l l' : List α) (a : α) (f : α → α) :
    (l ++ a :: l').modify l.length f = l ++ f a :: l' := by
  induction l with
  | nil => rfl
  | cons b l ih => rw [List.cons_append, List.length_cons, List.modify_succ_cons, ih]; rfl

/-- The fields of an object: the writer's loop against the reader's. -/
theorem writeValues_readFields {fuel : ℕ}
    (hrec : ∀ v s, CanWrite pool fuel s.visited v →
      ∃ s' bytes added, writeOn S pool.objects fuel v s = .ok s' ∧
        RoundTrip S pool fuel v s s' bytes added) :
    ∀ (vs : List (ScopeValue Loc Jobject Oop)) (s : WriteStream β), Visited pool s.visited →
      pool.objects.length < fuel + s.visited.length →
      (∀ v ∈ vs, v.Writable) → (∀ v ∈ vs, v.InPool pool.objects.length) →
      ∃ s' bytes added, writeValues (writeOn S pool.objects fuel) vs s = .ok s' ∧
        s'.out = s.out ++ bytes ∧ s'.visited = s.visited ++ added ∧ Visited pool s'.visited ∧
        ∀ (rest : List β) (before after : List (ObjectValue Loc Jobject Oop))
          (o : ObjectValue Loc Jobject Oop),
          Registered pool s.visited (before ++ o :: after) →
          ∃ vs' objs,
            readFields (readFrom S fuel) before.length vs.length
                ⟨bytes ++ rest, before ++ o :: after⟩ =
              .ok ⟨rest, before ++ { o with fieldValues := o.fieldValues ++ vs' } ::
                (after ++ objs)⟩ ∧
            List.Forall₂ (ValueMatches S s'.visited) vs vs' ∧
            NewObjects S pool s'.visited added objs := by
  intro vs
  induction vs with
  | nil =>
    intro s hvalid _ _ _
    refine ⟨s, [], [], rfl, by rw [List.append_nil], by rw [List.append_nil], hvalid, ?_⟩
    intro rest before after o _
    refine ⟨[], [], ?_, .nil, .nil⟩
    simp only [List.append_nil]
    rfl
  | cons v vs ih =>
    intro s hvalid hfuel hw hp
    obtain ⟨s₁, bytes₁, added₁, hwrite₁, h₁⟩ := hrec v s
      ⟨hvalid, hw v (List.mem_cons_self ..), hp v (List.mem_cons_self ..), hfuel⟩
    obtain ⟨s₂, bytes₂, added₂, hwrite₂, hout₂, hvis₂, hvalid₂, hread₂⟩ := ih s₁ h₁.valid
      (by rw [h₁.visited, List.length_append]; omega)
      (fun v' hv' => hw v' (List.mem_cons_of_mem _ hv'))
      (fun v' hv' => hp v' (List.mem_cons_of_mem _ hv'))
    have hle : s₁.visited <+: s₂.visited := ⟨added₂, hvis₂.symm⟩
    refine ⟨s₂, bytes₁ ++ bytes₂, added₁ ++ added₂, ?_, ?_, ?_, hvalid₂, ?_⟩
    · rw [writeValues, hwrite₁, ok_bind, hwrite₂]
    · rw [hout₂, h₁.out, List.append_assoc]
    · rw [hvis₂, h₁.visited, List.append_assoc]
    intro rest before after o hreg
    obtain ⟨v', objs₁, hr₁, hm₁, hn₁⟩ := h₁.read (bytes₂ ++ rest) _ hreg
    have hreg₁ : Registered pool s₁.visited
        (before ++ { o with fieldValues := o.fieldValues ++ [v'] } :: (after ++ objs₁)) := by
      have happ := hreg.append hn₁
      rw [← h₁.visited] at happ
      simpa [Registered] using happ
    obtain ⟨vs', objs₂, hr₂, hm₂, hn₂⟩ := hread₂ rest before (after ++ objs₁) _ hreg₁
    refine ⟨v' :: vs', objs₁ ++ objs₂, ?_, .cons (hm₁.mono hle) hm₂, ?_⟩
    · rw [List.append_assoc, List.length_cons, readFields, hr₁, ok_bind]
      simp only [ReadStream.update, List.append_assoc, List.cons_append, modify_append_cons]
      rw [hr₂]
      simp only [List.append_assoc, List.cons_append, List.nil_append]
    · exact List.rel_append (hn₁.mono hle) hn₂

/-- A length that fits in an int is read back. -/
theorem toNat_ofNat_length {n : ℕ} (h : n < 2 ^ 31) : (Int32.ofNat n).toInt.toNat = n := by
  rw [Int32.toInt_ofNat_of_lt h, Int.toNat_natCast]

/-- The klass and the fields of an object, against `ObjectValue::read_object` for
the object it has just registered. -/
theorem writeKlassAndFields_readObject {fuel : ℕ}
    (hrec : ∀ v s, CanWrite pool fuel s.visited v →
      ∃ s' bytes added, writeOn S pool.objects fuel v s = .ok s' ∧
        RoundTrip S pool fuel v s s' bytes added)
    (hw : pool.Writable) {o : ObjectValue Loc Jobject Oop} (ho : o ∈ pool.objects)
    {s : WriteStream β} (hvalid : Visited pool s.visited)
    (hfuel : pool.objects.length < fuel + s.visited.length) :
    ∃ s' bytes added, writeKlassAndFields S (writeOn S pool.objects fuel) o s = .ok s' ∧
      s'.out = s.out ++ bytes ∧ s'.visited = s.visited ++ added ∧ Visited pool s'.visited ∧
      ∀ (rest : List β) (before after : List (ObjectValue Loc Jobject Oop))
        (o' : ObjectValue Loc Jobject Oop), o'.fieldValues = [] →
        Registered pool s.visited (before ++ o' :: after) →
        ∃ klass' vs' objs,
          ObjectValue.readObject S (readFrom S fuel) before.length
              ⟨bytes ++ rest, before ++ o' :: after⟩ =
            .ok ⟨rest, before ++ { o' with klass := klass', fieldValues := vs' } ::
              (after ++ objs)⟩ ∧
          Option.Rel (ValueMatches S s'.visited) o.klass klass' ∧
          List.Forall₂ (ValueMatches S s'.visited) o.fieldValues vs' ∧
          NewObjects S pool s'.visited added objs := by
  obtain ⟨k, hk, hkc⟩ := pool.klass_constant o ho
  have hkw : k.Writable := (hw o ho).1 k hk
  have hkp : k.InPool pool.objects.length := by
    cases k <;> first | exact hkc.elim | trivial
  obtain ⟨s₁, bytes₁, added₁, hwrite₁, h₁⟩ := hrec k s ⟨hvalid, hkw, hkp, hfuel⟩
  -- the length of the field list goes between the klass and the fields
  obtain ⟨s₂, bytes₂, added₂, hwrite₂, hout₂, hvis₂, hvalid₂, hread₂⟩ :=
    writeValues_readFields hrec o.fieldValues
      (s₁.put (S.int.write (Int32.ofNat o.fieldValues.length))) h₁.valid
      (by rw [WriteStream.put, h₁.visited, List.length_append]; omega)
      (hw o ho).2 (pool.inPool o ho)
  have hle : s₁.visited <+: s₂.visited := ⟨added₂, hvis₂.symm⟩
  refine ⟨s₂, bytes₁ ++ (S.int.write (Int32.ofNat o.fieldValues.length) ++ bytes₂),
    added₁ ++ added₂,
    ?_, ?_, ?_, hvalid₂, ?_⟩
  · rw [writeKlassAndFields, hk, writePointer, hwrite₁, ok_bind, hwrite₂]
  · rw [hout₂, WriteStream.put, h₁.out]
    simp only [List.append_assoc]
  · rw [hvis₂, WriteStream.put, h₁.visited, List.append_assoc]
  intro rest before after o' hnil hreg
  obtain ⟨k', objs₁, hr₁, hm₁, hn₁⟩ := h₁.read
    (S.int.write (Int32.ofNat o.fieldValues.length) ++ (bytes₂ ++ rest)) _ hreg
  have hreg₁ : Registered pool s₁.visited
      (before ++ { o' with klass := some k' } :: (after ++ objs₁)) := by
    have happ := hreg.append hn₁
    rw [← h₁.visited] at happ
    simpa [Registered] using happ
  obtain ⟨vs', objs₂, hr₂, hm₂, hn₂⟩ := hread₂ rest before (after ++ objs₁) _ hreg₁
  refine ⟨some k', vs', objs₁ ++ objs₂, ?_, ?_, hm₂, List.rel_append (hn₁.mono hle) hn₂⟩
  · rw [ObjectValue.readObject, List.append_assoc, List.append_assoc, hr₁, ok_bind]
    simp only [ReadStream.update, List.append_assoc, List.cons_append, modify_append_cons,
      get_write, ok_bind, toNat_ofNat_length (pool.length_lt o ho)]
    rw [hr₂]
    simp only [hnil, List.append_assoc, List.nil_append]
  · rw [hk]
    exact .some (hm₁.mono hle)

/-- A visited object is written as its id and read from the reader's pool. -/
theorem visited_roundTrip {fuel r : ℕ} {o : ObjectValue Loc Jobject Oop} {s : WriteStream β}
    (hvalid : Visited pool s.visited) (ho : pool.objects[r]? = some o) (hr : r ∈ s.visited) :
    RoundTrip S pool (fuel + 1) (.object r) s ((s.putCode S .objectId).put (S.int.write o.id))
      (S.int.write Code.objectId.toInt ++ S.int.write o.id) [] where
  out := by simp only [WriteStream.put, WriteStream.putCode, List.append_assoc]
  visited := by simp only [WriteStream.put, WriteStream.putCode, List.append_nil]
  valid := hvalid
  read rest objPool hreg := by
    obtain ⟨i, hi⟩ := List.mem_iff_getElem?.mp hr
    refine ⟨.object i, [], ?_, .object r i hi, .nil⟩
    simp only [readFrom, List.append_assoc, get_write, ok_bind, Code.ofInt?_toInt,
      cachedObject_eq hvalid hreg hi ho, List.append_nil]

/-- An object that is not in the frame is read as an `ObjectValue`, without the fields that a stack
object has besides. -/
theorem readObject_of_ne {kind : ObjectKind} (h : kind ≠ .stackObject)
    (read : ReadStream β Loc Jobject Oop →
      Except DebugInfoError (ScopeValue Loc Jobject Oop × ReadStream β Loc Jobject Oop)) (i : ℕ)
    (s : ReadStream β Loc Jobject Oop) :
    readObject S read i s kind = ObjectValue.readObject S read i s := by
  cases kind with
  | object => rfl
  | autoBox => rfl
  | stackObject => exact absurd rfl h

/-- The code under which an object is written in full. -/
def ObjectKind.code : ObjectKind → Code
  | .object => .object
  | .autoBox => .autoBoxObject
  | .stackObject => .stackObject

/-- An object that is written in full: given what its body contributes, the
object is read as the last one of the pool the reader had. -/
theorem object_roundTrip {fuel r : ℕ} {o : ObjectValue Loc Jobject Oop} {s s' : WriteStream β}
    (bytes : List β) (added : List ℕ) (ho : pool.objects[r]? = some o)
    (hout : s'.out = s.out ++ (S.int.write o.kind.code.toInt ++ (S.int.write o.id ++ bytes)))
    (hvis : s'.visited = (s.visited ++ [r]) ++ added) (hvalid : Visited pool s'.visited)
    (hread : ∀ (rest : List β) (objPool : List (ObjectValue Loc Jobject Oop)),
      Registered pool (s.visited ++ [r]) (objPool ++ [.ofId o.kind o.id]) →
      ∃ o' objs,
        readObject S (readFrom S fuel) objPool.length
            ⟨bytes ++ rest, objPool ++ [.ofId o.kind o.id]⟩ o.kind =
          .ok ⟨rest, objPool ++ o' :: objs⟩ ∧
        ObjectMatches S s'.visited o o' ∧ NewObjects S pool s'.visited added objs) :
    RoundTrip S pool (fuel + 1) (.object r) s s'
      (S.int.write o.kind.code.toInt ++ (S.int.write o.id ++ bytes)) ([r] ++ added) where
  out := hout
  visited := by rw [hvis, List.append_assoc]
  valid := hvalid
  read rest objPool hreg := by
    have hreg' : Registered pool (s.visited ++ [r]) (objPool ++ [.ofId o.kind o.id]) := by
      simp only [Registered, visitedIds, List.map_append, List.map_cons, List.map_nil, ho,
        Option.map_some]
      rw [hreg, visitedIds]
      rfl
    obtain ⟨o', objs, hr, hm, hn⟩ := hread rest objPool hreg'
    refine ⟨.object objPool.length, o' :: objs, ?_, .object r _ ?_, ?_⟩
    · rcases hkind : o.kind with _ | _ | _ <;>
        rw [hkind] at hr <;>
        simp only [readFrom, ObjectKind.code, List.append_assoc, get_write, ok_bind,
          Code.ofInt?_toInt, readObjectValue, ReadStream.push, hr]
    · rw [hvis, hreg.length_eq, List.append_assoc, List.getElem?_append_right (Nat.le_refl _)]
      simp
    · exact .cons ⟨o, ho, hm⟩ hn

/-- The stream after the header of an object that is written in full. -/
def WriteStream.header (S : DebugStreams β Loc Jobject Oop) (s : WriteStream β) (r : ℕ)
    (o : ObjectValue Loc Jobject Oop) : WriteStream β :=
  ((s.visit r).putCode S o.kind.code).put (S.int.write o.id)

/-- An `ObjectValue` or `AutoBoxObjectValue` that was not visited. -/
theorem objectValue_roundTrip {fuel r : ℕ} {o : ObjectValue Loc Jobject Oop} {s : WriteStream β}
    (hrec : ∀ v s, CanWrite pool fuel s.visited v →
      ∃ s' bytes added, writeOn S pool.objects fuel v s = .ok s' ∧
        RoundTrip S pool fuel v s s' bytes added)
    (hw : pool.Writable) (ho : pool.objects[r]? = some o) (hr : r ∉ s.visited)
    (hkind : o.kind ≠ .stackObject) (hvalid : Visited pool (s.visited ++ [r]))
    (hfuel : pool.objects.length < fuel + (s.visited ++ [r]).length) :
    ∃ s' bytes added, writeOn S pool.objects (fuel + 1) (.object r) s = .ok s' ∧
      RoundTrip S pool (fuel + 1) (.object r) s s' bytes added := by
  obtain ⟨s', bytes, added, hwrite, hout, hvis, hvalid', hread⟩ :=
    writeKlassAndFields_readObject hrec hw (List.mem_of_getElem? ho) (s := s.header S r o)
      hvalid hfuel
  refine ⟨s', _, _, ?_, object_roundTrip bytes added ho ?_ hvis hvalid' ?_⟩
  · rw [← hwrite]
    simp only [writeOn, ho, if_neg hkind, ObjectValue.writeOn, if_neg hr]
    rcases hk : o.kind with _ | _ | _
    · simp [WriteStream.header, hk, ObjectKind.code]
    · simp [WriteStream.header, hk, ObjectKind.code]
    · exact absurd hk hkind
  · rw [hout]
    simp only [WriteStream.header, WriteStream.put, WriteStream.putCode, WriteStream.visit,
      List.append_assoc]
  · intro rest objPool hreg
    obtain ⟨klass', vs', objs, hr', hk, hf, hn⟩ := hread rest objPool [] _ rfl hreg
    refine ⟨{ ObjectValue.ofId o.kind o.id with klass := klass', fieldValues := vs' }, objs, ?_,
      ⟨rfl, rfl, hk, hf, fun h => absurd h hkind, fun h => absurd h hkind⟩, hn⟩
    rw [readObject_of_ne hkind, hr']
    rfl

/-- A `StackObjectValue` that was not visited. -/
theorem stackObjectValue_roundTrip {fuel r : ℕ} {o : ObjectValue Loc Jobject Oop}
    {s : WriteStream β}
    (hrec : ∀ v s, CanWrite pool fuel s.visited v →
      ∃ s' bytes added, writeOn S pool.objects fuel v s = .ok s' ∧
        RoundTrip S pool fuel v s s' bytes added)
    (hw : pool.Writable) (ho : pool.objects[r]? = some o) (hr : r ∉ s.visited)
    (hkind : o.kind = .stackObject) (hvalid : Visited pool (s.visited ++ [r]))
    (hfuel : pool.objects.length < fuel + (s.visited ++ [r]).length) :
    ∃ s' bytes added, writeOn S pool.objects (fuel + 1) (.object r) s = .ok s' ∧
      RoundTrip S pool (fuel + 1) (.object r) s s' bytes added := by
  have hmem : o ∈ pool.objects := List.mem_of_getElem? ho
  obtain ⟨loc, n, hloc, hlen⟩ := pool.stackObject o hmem hkind
  obtain ⟨s₁, bytes₁, added₁, hwrite₁, hout₁, hvis₁, hvalid₁, hread₁⟩ :=
    writeKlassAndFields_readObject hrec hw hmem (s := s.header S r o) hvalid hfuel
  -- the trailer: the place in the frame and the field length
  obtain ⟨s₂, bytes₂, added₂, hwrite₂, h₂⟩ := hrec (.constantInt n) (s₁.put (S.location.write loc))
    ⟨hvalid₁, trivial, trivial, by
      have : (s.header S r o).visited = s.visited ++ [r] := rfl
      rw [WriteStream.put, hvis₁, this, List.length_append]
      omega⟩
  have hle : s₁.visited <+: s₂.visited := ⟨added₂, h₂.visited.symm⟩
  refine ⟨s₂, _, _, ?_, object_roundTrip (bytes₁ ++ (S.location.write loc ++ bytes₂))
    (added₁ ++ added₂) ho ?_ ?_ h₂.valid ?_⟩
  · simp only [writeOn, ho, if_pos hkind, StackObjectValue.writeOn, if_neg hr, hloc, hlen]
    have hheader : ((s.visit r).putCode S Code.stackObject).put (S.int.write o.id) =
        s.header S r o := by
      rw [WriteStream.header, hkind]
      rfl
    rw [hheader, hwrite₁, ok_bind, writePointer, hwrite₂]
  · rw [h₂.out, WriteStream.put, hout₁]
    simp only [WriteStream.header, WriteStream.put, WriteStream.putCode, WriteStream.visit,
      List.append_assoc]
  · rw [h₂.visited, WriteStream.put, hvis₁, List.append_assoc]
    rfl
  · intro rest objPool hreg
    obtain ⟨klass', vs', objs₁, hr₁, hk, hf, hn₁⟩ :=
      hread₁ (S.location.write loc ++ (bytes₂ ++ rest)) objPool [] _ rfl hreg
    have hreg₁ : Registered pool s₁.visited
        (objPool ++ { ObjectValue.ofId o.kind o.id with
          klass := klass', fieldValues := vs', location := some loc } :: objs₁) := by
      have happ := hreg.append hn₁
      have hheader : (s.header S r o).visited = s.visited ++ [r] := rfl
      rw [← hheader, ← hvis₁] at happ
      simpa [Registered, ObjectValue.ofId] using happ
    obtain ⟨n', objs₂, hr₂, hm₂, hn₂⟩ := h₂.read rest _ hreg₁
    rw [List.nil_append] at hr₁
    refine ⟨{ ObjectValue.ofId o.kind o.id with
        klass := klass', fieldValues := vs', location := some loc, fieldLength := some n' },
      objs₁ ++ objs₂, ?_, ⟨rfl, rfl, ?_, ?_, fun _ => hloc.symm, fun _ => ?_⟩,
      List.rel_append (hn₁.mono hle) hn₂⟩
    · rw [hkind] at hr₁ hr₂
      simp only [readObject, StackObjectValue.readObject, hkind, List.append_assoc, hr₁, ok_bind,
        get_write, ReadStream.update, modify_append_cons, hr₂, List.cons_append]
    · exact ValueMatches.mono_pointer hle hk
    · exact hf.imp fun _ _ => ValueMatches.mono hle
    · rw [hlen]
      exact .some hm₂

/-- **Round trip of one scope value.** -/
theorem writeOn_roundTrip (hw : pool.Writable) :
    ∀ (fuel : ℕ) (v : ScopeValue Loc Jobject Oop) (s : WriteStream β),
      CanWrite pool fuel s.visited v →
      ∃ s' bytes added, writeOn S pool.objects fuel v s = .ok s' ∧
        RoundTrip S pool fuel v s s' bytes added := by
  intro fuel
  induction fuel with
  | zero =>
    intro v s hcan
    have := hcan.valid.length_le
    have := hcan.fuel_lt
    omega
  | succ fuel ih =>
    intro v s hcan
    cases v with
    | location loc =>
      exact ⟨_, _, _, rfl, leaf_roundTrip hcan.valid (fun rest objPool => by
        simp only [readFrom, get_write, ok_bind, Code.ofInt?_toInt]) (.location loc)⟩
    | constantInt n =>
      exact ⟨_, _, _, rfl, leaf_roundTrip hcan.valid (fun rest objPool => by
        simp only [readFrom, get_write, ok_bind, Code.ofInt?_toInt]) (.constantInt n)⟩
    | constantLong n =>
      exact ⟨_, _, _, rfl, leaf_roundTrip hcan.valid (fun rest objPool => by
        simp only [readFrom, get_write, ok_bind, Code.ofInt?_toInt]) (.constantLong n)⟩
    | constantDouble d =>
      exact ⟨_, _, _, rfl, leaf_roundTrip hcan.valid (fun rest objPool => by
        simp only [readFrom, get_write, ok_bind, Code.ofInt?_toInt]) (.constantDouble d)⟩
    | constantOopWrite h =>
      exact ⟨_, _, _, rfl, leaf_roundTrip hcan.valid (fun rest objPool => by
        simp only [readFrom, get_write, ok_bind, Code.ofInt?_toInt, S.oopAt_findIndex])
        (.constantOop h)⟩
    | constantOopRead h => exact hcan.writable.elim
    | marker =>
      refine ⟨(s.putCode S .marker).put [], _, _, ?_, leaf_roundTrip hcan.valid
        (fun rest objPool => by
          simp only [readFrom, get_write, ok_bind, Code.ofInt?_toInt, List.nil_append]) .marker⟩
      rw [writeOn, WriteStream.put, List.append_nil]
    | object r =>
      have hlt : r < pool.objects.length := hcan.inPool
      obtain ⟨o, ho⟩ : ∃ o, pool.objects[r]? = some o := ⟨_, List.getElem?_eq_getElem hlt⟩
      by_cases hr : r ∈ s.visited
      · refine ⟨_, _, _, ?_, visited_roundTrip hcan.valid ho hr⟩
        simp only [writeOn, ho, StackObjectValue.writeOn, ObjectValue.writeOn, if_pos hr, ite_self]
      · have hvalid : Visited pool (s.visited ++ [r]) := hcan.valid.append_singleton hr hlt
        have hfuel : pool.objects.length < fuel + (s.visited ++ [r]).length := by
          have := hcan.fuel_lt
          rw [List.length_append, List.length_singleton]
          omega
        by_cases hkind : o.kind = .stackObject
        · exact stackObjectValue_roundTrip ih hw ho hr hkind hvalid hfuel
        · exact objectValue_roundTrip ih hw ho hr hkind hvalid hfuel

/-- The read values and objects are the written ones up to the places of the
objects: place `i` of the reader's pool has the object at place `visited[i]` of
the writer's, and every reference goes to the place of the object it was written
for. -/
structure Isomorphic (S : DebugStreams β Loc Jobject Oop) (pool : ObjectPool Loc Jobject Oop)
    (visited : List ℕ) (vs vs' : List (ScopeValue Loc Jobject Oop))
    (objPool : List (ObjectValue Loc Jobject Oop)) : Prop where
  /-- an object is read once -/
  places : Visited pool visited
  values : List.Forall₂ (ValueMatches S visited) vs vs'
  objects : List.Forall₂
    (fun r o' => ∃ o, pool.objects[r]? = some o ∧ ObjectMatches S visited o o') visited objPool

/-- A list of scope values, written one after the other and read in the same
order. -/
theorem writeValues_readValues (hw : pool.Writable) {fuel : ℕ} :
    ∀ (vs : List (ScopeValue Loc Jobject Oop)) (s : WriteStream β), Visited pool s.visited →
      pool.objects.length < fuel + s.visited.length →
      (∀ v ∈ vs, v.Writable) → (∀ v ∈ vs, v.InPool pool.objects.length) →
      ∃ s' bytes added, writeValues (writeOn S pool.objects fuel) vs s = .ok s' ∧
        s'.out = s.out ++ bytes ∧ s'.visited = s.visited ++ added ∧ Visited pool s'.visited ∧
        ∀ (rest : List β) (objPool : List (ObjectValue Loc Jobject Oop)),
          Registered pool s.visited objPool →
          ∃ vs' objs,
            readValues (readFrom S fuel) vs.length ⟨bytes ++ rest, objPool⟩ =
              .ok (vs', ⟨rest, objPool ++ objs⟩) ∧
            List.Forall₂ (ValueMatches S s'.visited) vs vs' ∧
            NewObjects S pool s'.visited added objs := by
  intro vs
  induction vs with
  | nil =>
    intro s hvalid _ _ _
    refine ⟨s, [], [], rfl, by rw [List.append_nil], by rw [List.append_nil], hvalid, ?_⟩
    intro rest objPool _
    exact ⟨[], [], by rw [List.append_nil]; rfl, .nil, .nil⟩
  | cons v vs ih =>
    intro s hvalid hfuel hvw hvp
    obtain ⟨s₁, bytes₁, added₁, hwrite₁, h₁⟩ := writeOn_roundTrip (S := S) hw fuel v s
      ⟨hvalid, hvw v (List.mem_cons_self ..), hvp v (List.mem_cons_self ..), hfuel⟩
    obtain ⟨s₂, bytes₂, added₂, hwrite₂, hout₂, hvis₂, hvalid₂, hread₂⟩ := ih s₁ h₁.valid
      (by rw [h₁.visited, List.length_append]; omega)
      (fun v' hv' => hvw v' (List.mem_cons_of_mem _ hv'))
      (fun v' hv' => hvp v' (List.mem_cons_of_mem _ hv'))
    have hle : s₁.visited <+: s₂.visited := ⟨added₂, hvis₂.symm⟩
    refine ⟨s₂, bytes₁ ++ bytes₂, added₁ ++ added₂, ?_, ?_, ?_, hvalid₂, ?_⟩
    · rw [writeValues, hwrite₁, ok_bind, hwrite₂]
    · rw [hout₂, h₁.out, List.append_assoc]
    · rw [hvis₂, h₁.visited, List.append_assoc]
    intro rest objPool hreg
    obtain ⟨v', objs₁, hr₁, hm₁, hn₁⟩ := h₁.read (bytes₂ ++ rest) objPool hreg
    have hreg₁ := hreg.append hn₁
    rw [← h₁.visited] at hreg₁
    obtain ⟨vs', objs₂, hr₂, hm₂, hn₂⟩ := hread₂ rest _ hreg₁
    refine ⟨v' :: vs', objs₁ ++ objs₂, ?_, .cons (hm₁.mono hle) hm₂,
      List.rel_append (hn₁.mono hle) hn₂⟩
    simp only [List.append_assoc] at hr₂
    simp only [List.append_assoc, List.length_cons, readValues, hr₁, ok_bind, hr₂]

/-- **Decoding undoes encoding.** With the visited flags clear, the scope values
of a list over a pool without read oop constants can be written, and a reader
with an empty pool gets them and the objects they describe back, up to the
places of the objects, and stops where the writer stopped. -/
theorem read_from_write_on (S : DebugStreams β Loc Jobject Oop)
    (pool : ObjectPool Loc Jobject Oop) (hw : pool.Writable)
    (vs : List (ScopeValue Loc Jobject Oop)) (hvw : ∀ v ∈ vs, v.Writable)
    (hvp : ∀ v ∈ vs, v.InPool pool.objects.length) {fuel : ℕ} (hfuel : pool.objects.length < fuel)
    (out : List β) :
    ∃ s' bytes, writeValues (writeOn S pool.objects fuel) vs ⟨out, []⟩ = .ok s' ∧
      s'.out = out ++ bytes ∧
      ∀ rest : List β, ∃ vs' objPool,
        readValues (readFrom S fuel) vs.length ⟨bytes ++ rest, []⟩ = .ok (vs', ⟨rest, objPool⟩) ∧
        Isomorphic S pool s'.visited vs vs' objPool := by
  obtain ⟨s', bytes, added, hwrite, hout, hvis, hvalid, hread⟩ :=
    writeValues_readValues (S := S) hw vs ⟨out, []⟩ ⟨List.nodup_nil, by simp⟩ (by simpa using hfuel)
      hvw hvp
  refine ⟨s', bytes, hwrite, hout, fun rest => ?_⟩
  obtain ⟨vs', objs, hr, hm, hn⟩ := hread rest [] rfl
  rw [List.nil_append] at hvis hr
  refine ⟨vs', objs, hr, hvalid, hm, ?_⟩
  rw [NewObjects, ← hvis] at hn
  exact hn

end

/-! ### A stream with one code word for every datum

The laws of the streams hold of a simple stream, where every datum is one word. -/

/-- Streams of integers; a handle is its own index and its own oop. -/
def wordStreams : DebugStreams ℤ ℤ JInt JInt where
  int := .ofLeftInverse Int32.toInt Int32.ofInt Int32.ofInt_toInt
  signedInt := .ofLeftInverse Int32.toInt Int32.ofInt Int32.ofInt_toInt
  long := .ofLeftInverse Int64.toInt Int64.ofInt Int64.ofInt_toInt
  double := .ofLeftInverse (fun d => (d.toNat : ℤ)) (fun n => UInt64.ofNat n.toNat) fun d => by
    simp only [Int.toNat_natCast, UInt64.ofNat_toNat]
  location := .ofLeftInverse id id fun _ => rfl
  findIndex := id
  oopAt := id
  resolve := id
  oopAt_findIndex _ := rfl

/-- A scalar-replaced object and a stack object that refer to each other. -/
def cyclicPool : ObjectPool ℤ JInt JInt where
  objects := [
    ⟨.object, 40, some (.constantOopWrite 1), [.object 1, .constantInt 3], none, none⟩,
    ⟨.stackObject, 41, some (.constantOopWrite 2), [.object 0], some 16, some (.constantInt 1)⟩]
  ids_nodup := by decide
  klass_constant := by simp [ScopeValue.IsConstantOop]
  length_lt := by simp
  inPool := by simp [ScopeValue.InPool]
  stackObject := by simp

/-- The pool can be written, though its objects refer to one another. -/
theorem cyclicPool_writable : cyclicPool.Writable := by
  simp [ObjectPool.Writable, cyclicPool, ScopeValue.Writable]

/-- It is read back. -/
theorem read_from_write_on_cyclicPool :
    cyclicPool.Writable ∧
    ∃ s' bytes, writeValues (writeOn wordStreams cyclicPool.objects 3)
        [.object 1, .location 8, .object 0] ⟨[], []⟩ = .ok s' ∧
      s'.out = [] ++ bytes ∧
      ∀ rest, ∃ vs' objPool,
        readValues (readFrom wordStreams 3) 3 ⟨bytes ++ rest, []⟩ = .ok (vs', ⟨rest, objPool⟩) ∧
        Isomorphic wordStreams cyclicPool s'.visited [.object 1, .location 8, .object 0] vs'
          objPool :=
  ⟨cyclicPool_writable, read_from_write_on wordStreams cyclicPool cyclicPool_writable
    [.object 1, .location 8, .object 0] (by simp [ScopeValue.Writable])
    (by simp [ScopeValue.InPool, cyclicPool]) (by decide) []⟩

/-- An object with an oop constant among its fields that the VM has read. -/
def readConstantPool : ObjectPool ℤ JInt JInt where
  objects := [⟨.object, 40, some (.constantOopWrite 1), [.constantOopRead 5], none, none⟩]
  ids_nodup := by decide
  klass_constant := by simp [ScopeValue.IsConstantOop]
  length_lt := by simp
  inPool := by simp [ScopeValue.InPool]
  stackObject := by simp

/-- `ConstantOopReadValue::write_on` is not to be reached: an object that has
such a constant among its fields is never written. -/
theorem not_writeOn_readConstantPool :
    ¬ ∃ fuel s', writeValues (writeOn wordStreams readConstantPool.objects fuel) [.object 0]
      ⟨[], []⟩ = .ok s' := by
  rintro ⟨fuel, s', h⟩
  match fuel with
  | 0 => cases h
  | 1 => cases h
  | fuel + 2 => cases h

end StackAllocation
