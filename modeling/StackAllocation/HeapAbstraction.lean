import Mathlib.Data.Set.Insert
import Mathlib.Logic.Function.Basic
import Mathlib.Logic.Relation
import Mathlib.Data.Nat.Notation

/-!
# Abstractions of a heap

A method moves references between variables and the fields of objects, in any order and any
number of times; other code shares the objects it gets hold of. An abstraction says, by the
sites of objects, what variables and fields may refer to and which objects may escape. One that
is closed under what the method does (`Closed`) is right about every state of every run
(`Closed.sound`).

Objects that other code allocates have the site `unknown`. An object that escapes may be met
wherever an object of unknown site may be met, so an abstraction need not follow it.
-/

namespace HeapAbstraction

/-- Where a value is taken from. -/
inductive Operand (V S : Type) : Type where
  | var (x : V)
  /-- an object of which other code knows -/
  | constant (s : S)
  /-- any object of which other code knows -/
  | unknown
  | null

/-- An object, by the site of its allocation and a number. -/
structure Obj (S : Type) : Type where
  site : S
  serial : ℕ
  deriving DecidableEq

/-- What a method may do: its variables `V`, the places `F` that access fields, the sites `S`
of objects and the offsets `D` of fields. -/
structure Method (V F S D : Type) : Type where
  unknown : S
  /-- sites of constants -/
  global : S → Prop
  /-- sites of objects whose fields have unknown values at first -/
  initialized : S → Prop
  /-- a variable gets a value -/
  move : V → Operand V S → Prop
  /-- a variable gets a new object -/
  allocate : V → S → Prop
  /-- a variable gets what is in a field -/
  load : V → F → Prop
  /-- a field gets a value -/
  store : F → Operand V S → Prop
  /-- whose field it is -/
  base : F → Operand V S → Prop
  /-- which field of an object it may be -/
  covers : F → D → Prop
  /-- a value is given to other code -/
  pass : Operand V S → Prop
  /-- the fields of an object are given to other code -/
  expose : Operand V S → Prop
  /-- the fields of one object are copied to another -/
  clone : Operand V S → Operand V S → Prop

/-- A state of a run. -/
structure State (V S D : Type) : Type where
  var : V → Option (Obj S)
  heap : Obj S → D → Option (Obj S)
  allocated : Set (Obj S)
  /-- objects that other code refers to -/
  outside : Set (Obj S)
  /-- objects whose fields other code may access -/
  exposed : Set (Obj S)
  /-- objects that fields have been copied to -/
  copies : Set (Obj S)

variable {V F S D : Type}

/-- The value of an operand. -/
inductive Value (s : State V S D) : Operand V S → Option (Obj S) → Prop
  | var (x : V) : Value s (.var x) (s.var x)
  | constant {o : Obj S} : o ∈ s.outside → Value s (.constant o.site) (some o)
  | unknown {o : Obj S} : o ∈ s.outside → Value s .unknown (some o)
  | null : Value s .null none

section

variable [DecidableEq V] [DecidableEq S] [DecidableEq D] (M : Method V F S D)

/-- The variable is set. -/
def State.setVar (s : State V S D) (x : V) (v : Option (Obj S)) : State V S D :=
  { s with var := Function.update s.var x v }

/-- The field is set. -/
def State.setField (s : State V S D) (o : Obj S) (d : D) (v : Option (Obj S)) : State V S D :=
  { s with heap := Function.update s.heap o (Function.update (s.heap o) d v) }

omit [DecidableEq V] in
/-- What a field holds after it has been set. -/
theorem State.setField_heap {s : State V S D} {o o' p : Obj S} {d d' : D} {v : Option (Obj S)}
    (h : (s.setField o d v).heap o' d' = some p) :
    (o' = o ∧ d' = d ∧ v = some p) ∨ s.heap o' d' = some p := by
  simp only [State.setField] at h
  by_cases ho : o' = o
  · rw [ho, Function.update_self] at h
    by_cases hd : d' = d
    · rw [hd, Function.update_self] at h
      exact .inl ⟨ho, hd, h⟩
    · rw [Function.update_of_ne hd] at h
      exact .inr (ho ▸ h)
  · rw [Function.update_of_ne ho] at h
    exact .inr h

/-- A place may access the field of the object. -/
def Accesses (s : State V S D) (f : F) (o : Obj S) (d : D) : Prop :=
  M.covers f d ∧ ∃ b, M.base f b ∧ Value s b (some o)

/-- Other code refers to the value. -/
def Known (s : State V S D) (v : Option (Obj S)) : Prop := ∀ p, v = some p → p ∈ s.outside

/-- A step of the method, or of other code. -/
inductive Step (s : State V S D) : State V S D → Prop
  | move {y : V} {x : Operand V S} {v : Option (Obj S)} : M.move y x → Value s x v →
      Step s (s.setVar y v)
  | allocate {y : V} {o : Obj S} {c : D → Option (Obj S)} : M.allocate y o.site →
      o ∉ s.allocated → (∀ d, Known s (c d)) →
      (¬ M.initialized o.site → ∀ d, c d = none) →
      Step s
        { s with
          var := Function.update s.var y (some o)
          heap := Function.update s.heap o c
          allocated := insert o s.allocated }
  | load {y : V} {f : F} {o : Obj S} {d : D} : M.load y f → Accesses M s f o d →
      Step s (s.setVar y (s.heap o d))
  | store {f : F} {x : Operand V S} {v : Option (Obj S)} {o : Obj S} {d : D} : M.store f x →
      Value s x v → Accesses M s f o d → Step s (s.setField o d v)
  /-- one field of an object that is not itself a copy -/
  | clone {x y : Operand V S} {o o' : Obj S} {d : D} : M.clone x y → Value s x (some o) →
      Value s y (some o') → o ∉ s.copies →
      Step s { s.setField o' d (s.heap o d) with copies := insert o' s.copies }
  | pass {x : Operand V S} {o : Obj S} : M.pass x → Value s x (some o) →
      Step s { s with outside := insert o s.outside }
  | expose {x : Operand V S} {o : Obj S} : M.expose x → Value s x (some o) →
      Step s { s with exposed := insert o s.exposed }
  | otherLoad {o p : Obj S} {d : D} : o ∈ s.outside ∨ o ∈ s.exposed → s.heap o d = some p →
      Step s { s with outside := insert p s.outside }
  | otherStore {o : Obj S} {d : D} {v : Option (Obj S)} : o ∈ s.outside ∨ o ∈ s.exposed →
      Known s v → Step s (s.setField o d v)
  | otherAllocate {o : Obj S} {c : D → Option (Obj S)} : o.site = M.unknown →
      o ∉ s.allocated → (∀ d, Known s (c d)) →
      Step s
        { s with
          heap := Function.update s.heap o c
          allocated := insert o s.allocated
          outside := insert o s.outside }

end

/-- The method starts: nothing is in its variables, and all objects are known to other code. -/
structure Method.Start (M : Method V F S D) (s : State V S D) : Prop where
  var : ∀ x, s.var x = none
  outside : ∀ o ∈ s.outside, o.site = M.unknown ∨ M.global o.site
  heap : ∀ o d p, s.heap o d = some p → o ∈ s.outside ∧ p ∈ s.outside
  allocated : ∀ o ∈ s.outside, o ∈ s.allocated
  exposed : s.exposed = ∅
  copies : s.copies = ∅

/-! ## Methods that do less

A method is less than another if each thing it may do the other may do. What holds of every run of
the larger holds of every run of the smaller. -/

/-- All that `M` may do `M'` may do. -/
structure Method.Le (M M' : Method V F S D) : Prop where
  unknown : M'.unknown = M.unknown
  global : ∀ {s}, M.global s → M'.global s
  initialized : ∀ {s}, M.initialized s → M'.initialized s
  move : ∀ {y x}, M.move y x → M'.move y x
  allocate : ∀ {y s}, M.allocate y s → M'.allocate y s
  load : ∀ {y f}, M.load y f → M'.load y f
  store : ∀ {f x}, M.store f x → M'.store f x
  base : ∀ {f b}, M.base f b → M'.base f b
  covers : ∀ {f d}, M.covers f d → M'.covers f d
  pass : ∀ {x}, M.pass x → M'.pass x
  expose : ∀ {x}, M.expose x → M'.expose x
  clone : ∀ {x y}, M.clone x y → M'.clone x y

section

variable {M M' : Method V F S D} (h : M.Le M')
include h

/-- A method that does less accesses less. -/
theorem Method.Le.accesses {s : State V S D} {f : F} {o : Obj S} {d : D}
    (hacc : Accesses M s f o d) : Accesses M' s f o d := by
  obtain ⟨hcov, b, hbase, hval⟩ := hacc
  exact ⟨h.covers hcov, b, h.base hbase, hval⟩

/-- It starts in the same states. -/
theorem Method.Le.start {s : State V S D} (hs : M.Start s) : M'.Start s where
  var := hs.var
  outside o ho := by
    rw [h.unknown]
    exact (hs.outside o ho).imp id h.global
  heap := hs.heap
  allocated := hs.allocated
  exposed := hs.exposed
  copies := hs.copies

/-- Each step of it is a step of the other. -/
theorem Method.Le.step [DecidableEq V] [DecidableEq S] [DecidableEq D] {s s' : State V S D}
    (hstep : Step M s s') : Step M' s s' := by
  cases hstep with
  | move hm hv => exact .move (h.move hm) hv
  | allocate ha hfresh hknown hinit =>
    exact .allocate (h.allocate ha) hfresh hknown fun hnot => hinit fun hi =>
      hnot (h.initialized hi)
  | load hl hacc => exact .load (h.load hl) (h.accesses hacc)
  | store hst hv hacc => exact .store (h.store hst) hv (h.accesses hacc)
  | clone hc hx hy hcopy => exact .clone (h.clone hc) hx hy hcopy
  | pass hp hv => exact .pass (h.pass hp) hv
  | expose he hv => exact .expose (h.expose he) hv
  | otherLoad hshared hp => exact .otherLoad hshared hp
  | otherStore hshared hknown => exact .otherStore hshared hknown
  | otherAllocate hsite hfresh hknown =>
    exact .otherAllocate (hsite.trans h.unknown.symm) hfresh hknown

end

/-! ## Abstractions

An abstraction says of variables and fields which allocation sites their objects may be of, and
which sites escape. It is closed if every assignment of the method keeps within it. -/

/-- What is said about objects by their sites. -/
structure Abstraction (M : Method V F S D) : Type where
  /-- what a variable may refer to -/
  pointsTo : V → S → Prop
  /-- what a field may refer to -/
  content : F → S → Prop
  /-- what it may be a field of -/
  object : F → S → Prop
  escapes : S → Prop
  fieldsEscape : S → Prop

namespace Abstraction

variable {M : Method V F S D} (A : Abstraction M)

/-- What an operand may refer to. -/
def operand : Operand V S → S → Prop
  | .var x, s => A.pointsTo x s
  | .constant c, s => s = c
  | .unknown, s => s = M.unknown
  | .null, _ => False

/-- The abstraction follows what the method does. -/
structure Closed : Prop where
  move : ∀ {y x s}, M.move y x → A.operand x s → A.pointsTo y s
  allocate : ∀ {y s}, M.allocate y s → A.pointsTo y s
  load : ∀ {y f s}, M.load y f → A.content f s → A.pointsTo y s
  store : ∀ {f x s}, M.store f x → A.operand x s → A.content f s
  base : ∀ {f b s}, M.base f b → A.operand b s → A.object f s
  /-- the same field of an object -/
  same : ∀ {f f' s d p}, s ≠ M.unknown → A.object f s → A.object f' s → M.covers f d →
    M.covers f' d → A.content f p → A.content f' p
  /-- a copied field -/
  clone : ∀ {x y s t f f' d p}, M.clone x y → A.operand x s → A.operand y t → t ≠ M.unknown →
    A.object f s → A.object f' t → M.covers f d → M.covers f' d → A.content f p →
    A.content f' p
  clone_unknown : ∀ {x y t f}, M.clone x y → A.operand y t → A.object f t → A.content f M.unknown
  clone_fields : ∀ {x y s t}, M.clone x y → A.operand x s → A.operand y t → A.fieldsEscape t →
    A.fieldsEscape s
  initialized : ∀ {f s}, M.initialized s → A.object f s → A.content f M.unknown
  pass : ∀ {x s}, M.pass x → A.operand x s → A.escapes s
  expose : ∀ {x s}, M.expose x → A.operand x s → A.fieldsEscape s
  unknown : A.escapes M.unknown
  global : ∀ {s}, M.global s → A.escapes s
  fields : ∀ {s}, A.escapes s → A.fieldsEscape s
  fields_content : ∀ {f s p}, A.fieldsEscape s → A.object f s → A.content f p → A.escapes p
  fields_unknown : ∀ {f s}, A.fieldsEscape s → A.object f s → A.content f M.unknown

/-- The object is among those of the set, or escapes and is one of unknown site there. -/
def Among (P : S → Prop) (o : Obj S) : Prop := P o.site ∨ A.escapes o.site ∧ P M.unknown

/-- The abstraction is right about the state. -/
structure Sound (s : State V S D) : Prop where
  var : ∀ {x o}, s.var x = some o → A.Among (A.pointsTo x) o
  content : ∀ {o d p f}, s.heap o d = some p → A.object f o.site → M.covers f d →
    A.Among (A.content f) p
  /-- what has not been copied has been stored through a place -/
  stored : ∀ {o d p}, s.heap o d = some p → o ∉ s.copies → A.escapes p.site ∨
    ∃ f, A.object f o.site ∧ M.covers f d ∧ A.content f p.site
  fields : ∀ {o d p}, s.heap o d = some p → A.fieldsEscape o.site → A.escapes p.site
  outside : ∀ {o}, o ∈ s.outside → A.escapes o.site
  exposed : ∀ {o}, o ∈ s.exposed → A.fieldsEscape o.site

variable {A}

/-- A larger set of sites. -/
theorem Among.imp {P Q : S → Prop} {o : Obj S} (h : A.Among P o) (himp : ∀ t, P t → Q t) :
    A.Among Q o :=
  Or.imp (himp _) (fun hp => ⟨hp.1, himp _ hp.2⟩) h

section

variable (hA : A.Closed)
include hA

/-- What is in a field that escapes escapes. -/
theorem Closed.escapes_of_among {f : F} {t : S} {p : Obj S} (ht : A.fieldsEscape t)
    (hobj : A.object f t) (hp : A.Among (A.content f) p) : A.escapes p.site :=
  hp.elim (hA.fields_content ht hobj) And.left

/-- What escapes may be in a field that escapes. -/
theorem Closed.among_of_escapes {f : F} {t : S} {p : Obj S} (ht : A.fieldsEscape t)
    (hobj : A.object f t) (hp : A.escapes p.site) : A.Among (A.content f) p :=
  .inr ⟨hp, hA.fields_unknown ht hobj⟩

variable {s : State V S D} (hs : A.Sound s)
include hs

omit hA in
/-- The value of an operand is among what the operand is said to refer to. -/
theorem Sound.value {x : Operand V S} {v : Option (Obj S)} {o : Obj S} (h : Value s x v)
    (ho : v = some o) : A.Among (A.operand x) o := by
  cases h with
  | var x => exact hs.var ho
  | constant hout =>
    obtain rfl := Option.some.inj ho
    exact .inl rfl
  | unknown hout =>
    obtain rfl := Option.some.inj ho
    exact .inr ⟨hs.outside hout, rfl⟩
  | null => cases ho

omit hA in
/-- An object that is known outside has escaped. -/
theorem Sound.known {v : Option (Obj S)} {p : Obj S} (h : Known s v) (hp : v = some p) :
    A.escapes p.site :=
  hs.outside (h p hp)

/-- The object is one that the place is a field of. -/
theorem Sound.accesses {f : F} {o : Obj S} {d : D} (h : Accesses M s f o d) :
    A.Among (A.object f) o := by
  obtain ⟨-, b, hbase, hval⟩ := h
  exact (hs.value hval rfl).imp fun t => hA.base hbase

/-- A loaded value. -/
theorem Sound.loaded {f : F} {o p : Obj S} {d : D} (h : Accesses M s f o d)
    (hp : s.heap o d = some p) : A.Among (A.content f) p := by
  obtain hobj | ⟨hesc, hobj⟩ := hs.accesses hA h
  · exact hs.content hp hobj h.1
  · exact hA.among_of_escapes (hA.fields hA.unknown) hobj (hs.fields hp (hA.fields hesc))

/-- Other code accesses fields that escape. -/
theorem Sound.shared {o : Obj S} (h : o ∈ s.outside ∨ o ∈ s.exposed) : A.fieldsEscape o.site :=
  h.elim (fun ho => hA.fields (hs.outside ho)) hs.exposed

end

/-! ## Steps

One lemma for each kind of step, of the method or of other code. An object that other code knows has
escaped, and what it does to such objects stays among them. -/

/-- What a field may be given. -/
structure Storable (A : Abstraction M) (o : Obj S) (d : D) (p : Obj S) : Prop where
  content : ∀ {f}, A.object f o.site → M.covers f d → A.Among (A.content f) p
  fields : A.fieldsEscape o.site → A.escapes p.site

/-- Where the fields of an object have escaped, anything may be stored that has escaped. -/
theorem Closed.storable_of_fields (hA : A.Closed) {o p : Obj S} {d : D}
    (ho : A.fieldsEscape o.site) (hp : A.escapes p.site) : Storable A o d p :=
  ⟨fun hobj _ => hA.among_of_escapes ho hobj hp, fun _ => hp⟩

/-- The values that a new object may come with. -/
theorem Closed.storable_contents (hA : A.Closed) {o p : Obj S} {d : D}
    (hinit : M.initialized o.site) (hp : A.escapes p.site) : Storable A o d p :=
  ⟨fun hobj _ => .inr ⟨hp, hA.initialized hinit hobj⟩, fun _ => hp⟩

variable {s : State V S D}

/-- A variable gets a value that it may have. -/
theorem Sound.setVar [DecidableEq V] (hs : A.Sound s) {x : V} {v : Option (Obj S)}
    (hv : ∀ o, v = some o → A.Among (A.pointsTo x) o) : A.Sound (s.setVar x v) where
  var {y o} h := by
    simp only [State.setVar] at h
    by_cases hy : y = x
    · rw [hy, Function.update_self] at h
      rw [hy]
      exact hv o h
    · rw [Function.update_of_ne hy] at h
      exact hs.var h
  content := hs.content
  stored := hs.stored
  fields := hs.fields
  outside := hs.outside
  exposed := hs.exposed

section

variable [DecidableEq S] [DecidableEq D]

/-- A field gets a value that may be stored there. -/
theorem Sound.setField (hs : A.Sound s) {o : Obj S} {d : D} {v : Option (Obj S)}
    (hv : ∀ p, v = some p → Storable A o d p)
    (hstored : ∀ p, v = some p → o ∉ s.copies → A.escapes p.site ∨
      ∃ f, A.object f o.site ∧ M.covers f d ∧ A.content f p.site) : A.Sound (s.setField o d v) where
  var := hs.var
  content {o' d' p f} h hobj hcov := by
    obtain ⟨rfl, rfl, rfl⟩ | hold := State.setField_heap h
    · exact (hv p rfl).content hobj hcov
    · exact hs.content hold hobj hcov
  stored {o' d' p} h hcopy := by
    obtain ⟨rfl, rfl, rfl⟩ | hold := State.setField_heap h
    · exact hstored p rfl hcopy
    · exact hs.stored hold hcopy
  fields {o' d' p} h hesc := by
    obtain ⟨rfl, rfl, rfl⟩ | hold := State.setField_heap h
    · exact (hv p rfl).fields hesc
    · exact hs.fields hold hesc
  outside := hs.outside
  exposed := hs.exposed

/-- An object that has been copied to needs no place. -/
theorem Sound.copied (hs : A.Sound s) {o : Obj S} {d : D} {v : Option (Obj S)}
    (hv : ∀ p, v = some p → Storable A o d p) :
    A.Sound { s.setField o d v with copies := insert o s.copies } where
  var := hs.var
  content {o' d' p f} h hobj hcov := by
    obtain ⟨rfl, rfl, rfl⟩ | hold := State.setField_heap h
    · exact (hv p rfl).content hobj hcov
    · exact hs.content hold hobj hcov
  stored {o' d' p} h hcopy := by
    obtain ⟨rfl, -, -⟩ | hold := State.setField_heap h
    · exact absurd (Set.mem_insert _ _) hcopy
    · exact hs.stored hold fun hmem => hcopy (Set.mem_insert_of_mem _ hmem)
  fields {o' d' p} h hesc := by
    obtain ⟨rfl, rfl, rfl⟩ | hold := State.setField_heap h
    · exact (hv p rfl).fields hesc
    · exact hs.fields hold hesc
  outside := hs.outside
  exposed := hs.exposed

end

/-- A new object. -/
theorem Sound.newObject [DecidableEq S] (hs : A.Sound s) {o : Obj S} {c : D → Option (Obj S)}
    (hv : ∀ d p, c d = some p → Storable A o d p ∧ A.escapes p.site) :
    A.Sound
      { s with
        heap := Function.update s.heap o c
        allocated := insert o s.allocated } := by
  have hheap : ∀ {o' d p}, Function.update s.heap o c o' d = some p →
      o' = o ∧ c d = some p ∨ s.heap o' d = some p := by
    intro o' d p h
    by_cases ho : o' = o
    · rw [ho, Function.update_self] at h
      exact .inl ⟨ho, h⟩
    · rw [Function.update_of_ne ho] at h
      exact .inr h
  constructor
  · exact hs.var
  · intro o' d p f h hobj hcov
    obtain ⟨rfl, hp⟩ | hold := hheap h
    · exact (hv d p hp).1.content hobj hcov
    · exact hs.content hold hobj hcov
  · intro o' d p h hcopy
    obtain ⟨rfl, hp⟩ | hold := hheap h
    · exact .inl (hv d p hp).2
    · exact hs.stored hold hcopy
  · intro o' d p h hesc
    obtain ⟨rfl, hp⟩ | hold := hheap h
    · exact (hv d p hp).2
    · exact hs.fields hold hesc
  · exact hs.outside
  · exact hs.exposed

/-- An object that has escaped comes to be known outside. -/
theorem Sound.insert_outside (hs : A.Sound s) {o : Obj S} (ho : A.escapes o.site) :
    A.Sound { s with outside := insert o s.outside } where
  var := hs.var
  content := hs.content
  stored := hs.stored
  fields := hs.fields
  outside h := h.elim (fun heq => heq ▸ ho) hs.outside
  exposed := hs.exposed

/-- The fields of an object come to be known outside, if they have escaped. -/
theorem Sound.insert_exposed (hs : A.Sound s) {o : Obj S} (ho : A.fieldsEscape o.site) :
    A.Sound { s with exposed := insert o s.exposed } where
  var := hs.var
  content := hs.content
  stored := hs.stored
  fields := hs.fields
  outside := hs.outside
  exposed h := h.elim (fun heq => heq ▸ ho) hs.exposed

section

variable (hA : A.Closed) (hs : A.Sound s)
include hA hs

/-- A stored value may be in every place that accesses the field. -/
theorem Sound.storable [DecidableEq S] {f : F} {o p : Obj S} {d : D} (hacc : Accesses M s f o d)
    (hp : A.Among (A.content f) p) : Storable A o d p := by
  obtain hobj | ⟨hesc, hobj⟩ := hs.accesses hA hacc
  · refine ⟨fun {f'} hobj' hcov => ?_, fun hfields => hA.escapes_of_among hfields hobj hp⟩
    by_cases hu : o.site = M.unknown
    · have hfields : A.fieldsEscape o.site := hu ▸ hA.fields hA.unknown
      exact hA.among_of_escapes hfields hobj' (hA.escapes_of_among hfields hobj hp)
    · exact hp.imp fun t => hA.same hu hobj hobj' hacc.1 hcov
  · exact hA.storable_of_fields (hA.fields hesc)
      (hA.escapes_of_among (hA.fields hA.unknown) hobj hp)

/-- A copied value may be in every place that accesses the field of the copy. -/
theorem Sound.cloned [DecidableEq S] {x y : Operand V S} {o o' p : Obj S} {d : D}
    (hclone : M.clone x y) (hx : Value s x (some o)) (hy : Value s y (some o'))
    (hcopy : o ∉ s.copies) (hp : s.heap o d = some p) : Storable A o' d p := by
  -- fields that escape from the copy escape from the object
  have hfields : ∀ t, A.operand y t → A.fieldsEscape t → A.escapes p.site := by
    intro t ht htf
    obtain hs' | ⟨hesc, -⟩ := hs.value hx rfl
    · exact hs.fields hp (hA.clone_fields hclone hs' ht htf)
    · exact hs.fields hp (hA.fields hesc)
  obtain ht | ⟨hesc, ht⟩ := hs.value hy rfl
  · refine ⟨fun {f'} hobj' hcov => ?_, hfields _ ht⟩
    by_cases hu : o'.site = M.unknown
    · have hfu : A.fieldsEscape o'.site := hu ▸ hA.fields hA.unknown
      exact hA.among_of_escapes hfu hobj' (hfields _ ht hfu)
    have hunknown : A.escapes p.site → A.Among (A.content f') p := fun hesc =>
      .inr ⟨hesc, hA.clone_unknown hclone ht hobj'⟩
    obtain hs' | ⟨hesc, -⟩ := hs.value hx rfl
    · obtain hesc | ⟨f, hobj, hcov', hcont⟩ := hs.stored hp hcopy
      · exact hunknown hesc
      · exact .inl (hA.clone hclone hs' ht hu hobj hobj' hcov' hcov hcont)
    · exact hunknown (hs.fields hp (hA.fields hesc))
  · exact hA.storable_of_fields (hA.fields hesc) (hfields _ ht (hA.fields hA.unknown))

/-- A step keeps the abstraction right. -/
theorem Sound.step [DecidableEq V] [DecidableEq S] [DecidableEq D] {s' : State V S D}
    (h : Step M s s') : A.Sound s' := by
  cases h with
  | move hm hv => exact hs.setVar fun o ho => (hs.value hv ho).imp fun t => hA.move hm
  | @allocate y o c ha hfresh hknown hinit =>
    have hnew := hs.newObject (o := o) (c := c) fun d p hp => by
      have hesc := hs.known (hknown d) hp
      refine ⟨hA.storable_contents ?_ hesc, hesc⟩
      by_contra hnot
      rw [hinit hnot d] at hp
      cases hp
    refine hnew.setVar (x := y) (v := some o) fun o' ho' => ?_
    obtain rfl := Option.some.inj ho'
    exact .inl (hA.allocate ha)
  | load hl hacc =>
    exact hs.setVar fun p hp => (hs.loaded hA hacc hp).imp fun t => hA.load hl
  | @store f x v o d hst hv hacc =>
    have hval : ∀ p, v = some p → A.Among (A.content f) p := fun p hp =>
      (hs.value hv hp).imp fun t => hA.store hst
    refine hs.setField (fun p hp => hs.storable hA hacc (hval p hp)) fun p hp _ => ?_
    obtain hobj | ⟨-, hobj⟩ := hs.accesses hA hacc
    · obtain hcont | ⟨hesc, -⟩ := hval p hp
      · exact .inr ⟨f, hobj, hacc.1, hcont⟩
      · exact .inl hesc
    · exact .inl (hA.escapes_of_among (hA.fields hA.unknown) hobj (hval p hp))
  | clone hc hx hy hcopy => exact hs.copied fun p hp => hs.cloned hA hc hx hy hcopy hp
  | pass hpass hv =>
    refine hs.insert_outside ?_
    obtain hop | ⟨hesc, -⟩ := hs.value hv rfl
    · exact hA.pass hpass hop
    · exact hesc
  | expose hexp hv =>
    refine hs.insert_exposed ?_
    obtain hop | ⟨hesc, -⟩ := hs.value hv rfl
    · exact hA.expose hexp hop
    · exact hA.fields hesc
  | otherLoad hshared hp => exact hs.insert_outside (hs.fields hp (hs.shared hA hshared))
  | otherStore hshared hknown =>
    refine hs.setField (fun p hp => ?_) fun p hp _ => .inl (hs.known hknown hp)
    exact hA.storable_of_fields (hs.shared hA hshared) (hs.known hknown hp)
  | @otherAllocate o c hsite hfresh hknown =>
    have hesc : A.escapes o.site := hsite ▸ hA.unknown
    have hnew := hs.newObject (o := o) (c := c) fun d p hp =>
      ⟨hA.storable_of_fields (hA.fields hesc) (hs.known (hknown d) hp), hs.known (hknown d) hp⟩
    exact hnew.insert_outside hesc

end

/-! ## Runs

The abstraction is right at the start, where nothing is known, and every step keeps it. So it is
right about every state of a run. -/

/-- The graph describes every state that the method starts in. -/
theorem Closed.start (hA : A.Closed) (hs : M.Start s) : A.Sound s := by
  have hout : ∀ {o}, o ∈ s.outside → A.escapes o.site := fun {o} ho =>
    (hs.outside o ho).elim (fun hu => hu ▸ hA.unknown) hA.global
  constructor
  · intro x o h
    rw [hs.var x] at h
    cases h
  · intro o d p f h hobj _
    obtain ⟨ho, hp⟩ := hs.heap o d p h
    exact hA.among_of_escapes (hA.fields (hout ho)) hobj (hout hp)
  · exact fun h _ => .inl (hout (hs.heap _ _ _ h).2)
  · exact fun h _ => hout (hs.heap _ _ _ h).2
  · exact hout
  · intro o h
    rw [hs.exposed] at h
    exact absurd h (Set.notMem_empty o)

/-- A closed abstraction is right about every state of a run. -/
theorem Closed.sound [DecidableEq V] [DecidableEq S] [DecidableEq D] (hA : A.Closed)
    {s' : State V S D} (hs : M.Start s)
    (hrun : Relation.ReflTransGen (Step M) s s') : A.Sound s' := by
  induction hrun with
  | refl => exact hA.start hs
  | tail _ hstep ih => exact ih.step hA hstep

end Abstraction

end HeapAbstraction
