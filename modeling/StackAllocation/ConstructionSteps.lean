import StackAllocation.GraphConstruction

/-!
# Steps of the construction

What construction does to the connection graph besides what completion does: a new node, a base
that is a local variable, and the two edges of an arraycopy with their flags. All of them keep the
graph well formed.
-/

namespace StackAllocation

/-! ## New nodes

A node that is not there yet is as if it were blank and nothing refers to it. To make it is to
replace it by a node without links, so everything that is known of the other nodes stays; what has
to be checked is the new node alone. -/

/-- A node without edges. -/
structure PointsToNode.Blank (m : PointsToNode) : Prop where
  edges : m.edges = []
  uses : m.uses = []
  bases : m.bases = []
  unknownPtr : m.hasUnknownPtr = false
  unknownBase : m.hasUnknownBase = false
  state : m.fieldsEscapeState = m.escapeState

/-- A node that is just made has no links. -/
theorem blankNode_blank (type : NodeType) (ideal : IdealKind) (es : EscapeState) :
    (blankNode type ideal es).Blank := ⟨rfl, rfl, rfl, rfl, rfl, rfl⟩

/-- No node refers to the node. -/
def Unreferenced (g : Nodes) (n : ℕ) : Prop := ∀ k, n ∉ (g k).edges ∧ n ∉ (g k).bases

section

variable {g g' : Nodes} {n : ℕ} {m : PointsToNode}

/-- What blank nodes have in common. -/
theorem update_blank_same (hout : g n = outside) {α : Type} (f : PointsToNode → α)
    (hf : f m = f outside) (k : ℕ) : f (Function.update g n m k) = f (g k) := by
  by_cases hk : k = n
  · rw [hk, Function.update_self, hf, hout]
  · rw [Function.update_of_ne hk]

/-- Both ends of an edge are other nodes than a new one. -/
theorem Unreferenced.edge_ne (hnew : Unreferenced g n) (hout : g n = outside) {k e : ℕ}
    (he : e ∈ (g k).edges) : k ≠ n ∧ e ≠ n := by
  refine ⟨?_, ?_⟩
  · rintro rfl
    rw [hout] at he
    exact List.not_mem_nil he
  · rintro rfl
    exact (hnew k).1 he

/-- A new node is no base of another. -/
theorem Unreferenced.base_ne (hnew : Unreferenced g n) (hout : g n = outside) {k e : ℕ}
    (he : e ∈ (g k).bases) : k ≠ n ∧ e ≠ n := by
  refine ⟨?_, ?_⟩
  · rintro rfl
    rw [hout] at he
    exact List.not_mem_nil he
  · rintro rfl
    exact (hnew k).2 he

/-- The ends of an edge stay as they are. -/
theorem Unreferenced.edge_kept (hnew : Unreferenced g n) (m : PointsToNode) (hout : g n = outside)
    {k e : ℕ} (he : e ∈ (g k).edges) :
    Function.update g n m k = g k ∧ Function.update g n m e = g e := by
  obtain ⟨hk, hen⟩ := hnew.edge_ne hout he
  exact ⟨Function.update_of_ne hk _ _, Function.update_of_ne hen _ _⟩

/-- The bases that were there are as they were. -/
theorem Unreferenced.base_kept (hnew : Unreferenced g n) (m : PointsToNode) (hout : g n = outside)
    {f b : ℕ} (hb : b ∈ (g f).bases) :
    Function.update g n m f = g f ∧ Function.update g n m b = g b := by
  obtain ⟨hf, hbn⟩ := hnew.base_ne hout hb
  exact ⟨Function.update_of_ne hf _ _, Function.update_of_ne hbn _ _⟩

/-- So do the phantom object and that for null, which are there from the start. -/
theorem WellFormed.update_phantom (hg : WellFormed g) (hout : g n = outside) :
    Function.update g n m phantomObj = g phantomObj := by
  refine Function.update_of_ne ?_ _ _
  rintro rfl
  have hes := hg.phantom_escapes.1
  rw [hout] at hes
  cases hes

/-- A new node is not the null object. -/
theorem WellFormed.update_null (hg : WellFormed g) (hout : g n = outside) :
    Function.update g n m nullObj = g nullObj := by
  refine Function.update_of_ne ?_ _ _
  rintro rfl
  have hideal := hg.null_ideal
  rw [hout] at hideal
  cases hideal

/-- A field is among the edges of an object as before. -/
theorem WellFormed.update_object_edges (hg : WellFormed g) (hout : g n = outside)
    (hnew : Unreferenced g n) {f b : ℕ} (hb : (Function.update g n m b).type = .javaObject)
    (hf : (Function.update g n m f).type = .field) :
    f ∈ (g b).edges ↔ b ∈ (g f).bases ∧ b ≠ nullObj := by
  by_cases hbn : b = n
  · subst hbn
    exact iff_of_false (fun he => (hnew.edge_ne hout he).1 rfl)
      fun hmem => (hnew.base_ne hout hmem.1).2 rfl
  by_cases hfn : f = n
  · subst hfn
    exact iff_of_false (fun he => (hnew.edge_ne hout he).2 rfl)
      fun hmem => (hnew.base_ne hout hmem.1).1 rfl
  rw [Function.update_of_ne hbn] at hb
  rw [Function.update_of_ne hfn] at hf
  exact hg.mem_object_edges f b hb hf

/-- A new node keeps the graph well formed. -/
theorem WellFormed.nodeAdded (hg : WellFormed g) (hout : g n = outside) (hnew : Unreferenced g n)
    (hm : m.Blank) : WellFormed (Function.update g n m) := by
  have same : ∀ {α : Type} (f : PointsToNode → α), f m = f outside →
      ∀ k, f (Function.update g n m k) = f (g k) := update_blank_same hout
  have edges := same PointsToNode.edges hm.edges
  have uses := same PointsToNode.uses hm.uses
  have bases := same PointsToNode.bases hm.bases
  have unknownPtr := same PointsToNode.hasUnknownPtr hm.unknownPtr
  have unknownBase := same PointsToNode.hasUnknownBase hm.unknownBase
  have phantom : Function.update g n m phantomObj = g phantomObj := hg.update_phantom hout
  have null : Function.update g n m nullObj = g nullObj := hg.update_null hout
  constructor
  case mem_uses =>
    intro k e
    rw [uses, edges, hg.mem_uses]
    refine and_congr_right fun he => ?_
    obtain ⟨hk, he⟩ := hnew.edge_kept m hout he
    rw [hk, he]
  case mem_base_uses =>
    intro f b
    rw [uses, bases, hg.mem_base_uses]
    refine and_congr_right fun hb => ?_
    rw [(hnew.base_kept m hout hb).2]
  case mem_object_edges =>
    intro f b hb hf
    rw [edges, bases]
    exact hg.update_object_edges hout hnew hb hf
  case bases_field =>
    intro f b hb
    rw [bases] at hb
    obtain ⟨hf', hb'⟩ := hnew.base_kept m hout hb
    rw [hf', hb']
    exact hg.bases_field f b hb
  case object_edges =>
    intro k e hk he
    rw [edges] at he
    obtain ⟨hk', he'⟩ := hnew.edge_kept m hout he
    rw [hk'] at hk
    rw [he']
    exact hg.object_edges k e hk he
  case unknownPtr =>
    intro k
    rw [unknownPtr, edges, hg.unknownPtr]
  case unknownBase =>
    intro f
    rw [unknownBase, bases, hg.unknownBase]
  case arraycopySrc =>
    intro ac s hac hs
    rw [edges] at hs
    obtain ⟨hac', hs'⟩ := hnew.edge_kept m hout hs
    rw [hac'] at hac
    rw [hs']
    exact hg.arraycopySrc ac s hac hs
  case arraycopyDst =>
    intro d ac hac hd
    rw [edges] at hd
    obtain ⟨hd', hac'⟩ := hnew.edge_kept m hout hd
    rw [hac'] at hac
    rw [hd']
    exact hg.arraycopyDst d ac hac hd
  case arraycopy_dst_type =>
    intro d ac hac hd
    rw [edges] at hd
    obtain ⟨hd', hac'⟩ := hnew.edge_kept m hout hd
    rw [hac'] at hac
    rw [hd']
    exact hg.arraycopy_dst_type d ac hac hd
  case phantom_type => exact phantom ▸ hg.phantom_type
  case phantom_escapes => exact phantom ▸ hg.phantom_escapes
  case null_type => exact null ▸ hg.null_type
  case null_ideal => exact null ▸ hg.null_ideal
  case null_edges => exact null ▸ hg.null_edges
  case null_flags => exact null ▸ hg.null_flags
  case state_le =>
    intro k
    by_cases hk : k = n
    · rw [hk, Function.update_self, hm.state]
    · rw [Function.update_of_ne hk]
      exact hg.state_le k

end

/-! ## Other nodes

The nodes that do not exist are all equal to one value, `outside`. A change that links two existing
nodes leaves these alone, which is used when a later ideal node makes its own. -/

/-- A node but for its edges, uses and bases. -/
def PointsToNode.withoutLinks (m : PointsToNode) : PointsToNode :=
  { m with edges := [], uses := [], bases := [] }

/-- A node without links and with the defaults is as if it was not there. -/
theorem eq_outside {m : PointsToNode} (hrest : m.withoutLinks = outside)
    (hedges : ∀ e, e ∉ m.edges) (huses : ∀ u, u ∉ m.uses) (hbases : ∀ b, b ∉ m.bases) :
    m = outside := by
  have hedges := List.eq_nil_iff_forall_not_mem.2 hedges
  have huses := List.eq_nil_iff_forall_not_mem.2 huses
  have hbases := List.eq_nil_iff_forall_not_mem.2 hbases
  cases m
  simp only at hedges huses hbases
  rw [← hrest, PointsToNode.withoutLinks, hedges, huses, hbases]

/-- What is not there has no links. -/
theorem not_mem_outside {α : Type} {l : PointsToNode → List α} {k : PointsToNode} {a : α}
    (hk : k = outside) (hl : l outside = []) : a ∉ l k := by
  rw [hk, hl]
  exact List.not_mem_nil

/-- Nodes that are no end of a new edge stay outside. -/
theorem EdgeAdded.outside {g g' : Nodes} {src dst k : ℕ} (h : EdgeAdded src dst g g')
    (hout : g k = outside) (hsrc : k ≠ src) (hdst : k ≠ dst) : g' k = StackAllocation.outside := by
  have hptr : (g' k).hasUnknownPtr = false := by
    rw [← Bool.not_eq_true, h.unknownPtr, hout]
    rintro (hfalse | ⟨heq, -⟩)
    · cases hfalse
    · exact hsrc heq
  refine eq_outside ?_ (fun e he => ?_) (fun u hu => ?_) fun b hb => ?_
  · have hrest := h.rest k
    rw [hout] at hrest
    generalize g' k = m at hptr hrest
    cases m
    simp only [PointsToNode.withoutEdges, StackAllocation.outside, blankNode,
      PointsToNode.mk.injEq] at hrest hptr
    simp [PointsToNode.withoutLinks, StackAllocation.outside, blankNode, hrest, hptr]
  · obtain he | ⟨heq, -⟩ := (h.mem_edges k e).1 he
    · exact not_mem_outside hout rfl he
    · exact hsrc heq
  · obtain hu | ⟨heq, -⟩ := (h.mem_uses k u).1 hu
    · exact not_mem_outside hout rfl hu
    · exact hdst heq
  · rw [h.bases] at hb
    exact not_mem_outside hout rfl hb

/-- A new base makes no node but its own two. -/
theorem BaseAdded.outside {g g' : Nodes} {field base k : ℕ} (h : BaseAdded field base g g')
    (hout : g k = outside) (hfield : k ≠ field) (hbase : k ≠ base) :
    g' k = StackAllocation.outside := by
  have hunknown : (g' k).hasUnknownBase = false := by
    rw [← Bool.not_eq_true, h.unknownBase, hout]
    rintro (hfalse | ⟨heq, -⟩)
    · cases hfalse
    · exact hfield heq
  refine eq_outside ?_ (fun e he => ?_) (fun u hu => ?_) fun b hb => ?_
  · have hrest := h.rest k
    rw [hout] at hrest
    generalize g' k = m at hunknown hrest
    cases m
    simp only [PointsToNode.withoutBases, StackAllocation.outside, blankNode,
      PointsToNode.mk.injEq] at hrest hunknown
    simp [PointsToNode.withoutLinks, StackAllocation.outside, blankNode, hrest, hunknown]
  · obtain he | ⟨heq, -⟩ := (h.mem_edges k e).1 he
    · exact not_mem_outside hout rfl he
    · exact hbase heq
  · rw [h.uses] at hu
    exact not_mem_outside hout rfl hu
  · obtain hb | ⟨heq, -⟩ := (h.mem_bases k b).1 hb
    · exact not_mem_outside hout rfl hb
    · exact hfield heq

/-! ## Bases that are local variables

`add_base` may be given a local variable, when the base of an address is not an object yet. The
field remembers it as a base and the variable as a use; objects that the variable comes to refer to
become bases later. -/

/-- A field has one more base, a local variable. -/
structure BaseUsed (field base : ℕ) (g g' : Nodes) : Prop where
  rest : ∀ n, { g' n with bases := [], uses := [] } = { g n with bases := [], uses := [] }
  mem_bases : ∀ n b, b ∈ (g' n).bases ↔ b ∈ (g n).bases ∨ n = field ∧ b = base
  mem_uses : ∀ n u, u ∈ (g' n).uses ↔ u ∈ (g n).uses ∨ n = base ∧ u = .base field

/-- What depends neither on the bases nor on the uses is as before. -/
theorem BaseUsed.same {field base : ℕ} {g g' : Nodes} (h : BaseUsed field base g g') (n : ℕ)
    {α : Type} (f : PointsToNode → α) (hf : ∀ m, f { m with bases := [], uses := [] } = f m) :
    f (g' n) = f (g n) := by
  rw [← hf, h.rest n, hf]

/-- A base that is a local variable adds to the graph. -/
theorem BaseUsed.extends {field base : ℕ} {g g' : Nodes} (h : BaseUsed field base g g') :
    Extends g g' where
  type n := h.same n _ fun _ => rfl
  ideal n := h.same n _ fun _ => rfl
  isOop n := h.same n _ fun _ => rfl
  offset n := h.same n _ fun _ => rfl
  escapeState n := Nat.le_of_eq (congrArg EscapeState.toNat
    (h.same n PointsToNode.escapeState fun _ => rfl)).symm
  edges n e he := by
    rw [h.same n PointsToNode.edges fun _ => rfl]
    exact he
  bases n _ hb := (h.mem_bases n _).2 (.inl hb)

/-- And it makes no node. -/
theorem BaseUsed.outside {g g' : Nodes} {field base k : ℕ} (h : BaseUsed field base g g')
    (hout : g k = outside) (hfield : k ≠ field) (hbase : k ≠ base) :
    g' k = StackAllocation.outside := by
  have hrest := h.rest k
  rw [hout] at hrest
  refine eq_outside ?_ (fun e he => ?_) (fun u hu => ?_) fun b hb => ?_
  · exact congrArg (fun m => { m with edges := [] }) hrest
  · rw [h.same k PointsToNode.edges fun _ => rfl] at he
    exact not_mem_outside hout rfl he
  · obtain hu | ⟨heq, -⟩ := (h.mem_uses k u).1 hu
    · exact not_mem_outside hout rfl hu
    · exact hbase heq
  · obtain hb | ⟨heq, -⟩ := (h.mem_bases k b).1 hb
    · exact not_mem_outside hout rfl hb
    · exact hfield heq

/-- What `add_base` does with a local variable: nothing if it is a base. -/
theorem addBase_localVar {g : Nodes} (hg : WellFormed g) {field base : ℕ}
    (hfield : (g field).type = .field) (hbase : (g base).type = .localVar) :
    (base ∈ (g field).bases ∧ (addBase g field base).2 = g) ∨
      base ∉ (g field).bases ∧ BaseUsed field base g (addBase g field base).2 := by
  have hphantom : base ≠ phantomObj := by
    rintro rfl
    exact absurd (hg.phantom_type.symm.trans hbase) (by decide)
  have hnull : base ≠ nullObj := by
    rintro rfl
    exact absurd (hg.null_type.symm.trans hbase) (by decide)
  have hne : base ≠ field := by
    rintro rfl
    exact absurd (hbase.symm.trans hfield) (by decide)
  have hjava : (g base).type ≠ .javaObject := by
    rw [hbase]
    decide
  simp only [addBase, hphantom, false_and, if_false, PointsToNode.addBase]
  by_cases hmem : base ∈ (g field).bases
  · exact .inl ⟨hmem, by rw [if_pos hmem]⟩
  · have huse : .base field ∉ (g base).uses := fun h => hmem ((hg.mem_base_uses field base).1 h).1
    refine .inr ⟨hmem, ?_⟩
    rw [if_neg hmem]
    simp only [if_neg hnull, Function.update_of_ne hne, if_neg hjava, PointsToNode.addUse,
      if_neg huse]
    constructor
    · intro n
      by_cases hnb : n = base
      · simp [hnb]
      · by_cases hnf : n = field <;> simp [hnb, hnf, Ne.symm hne]
    · intro n b
      by_cases hnb : n = base
      · simp [hnb, hne]
      · by_cases hnf : n = field <;> simp [hnb, hnf, Ne.symm hne]
    · intro n u
      by_cases hnb : n = base
      · simp [hnb]
      · by_cases hnf : n = field <;> simp [hnb, hnf, Ne.symm hne]

/-- A local variable as a new base keeps the graph well formed. -/
theorem WellFormed.baseUsed {g g' : Nodes} {field base : ℕ} (hg : WellFormed g)
    (h : BaseUsed field base g g') (hfield : (g field).type = .field)
    (hbase : (g base).type = .localVar) : WellFormed g' := by
  have type : ∀ n, (g' n).type = (g n).type := fun n => h.same n _ fun _ => rfl
  have ideal : ∀ n, (g' n).ideal = (g n).ideal := fun n => h.same n _ fun _ => rfl
  have edges : ∀ n, (g' n).edges = (g n).edges := fun n => h.same n _ fun _ => rfl
  have unknownPtr : ∀ n, (g' n).hasUnknownPtr = (g n).hasUnknownPtr :=
    fun n => h.same n _ fun _ => rfl
  have unknownBase : ∀ n, (g' n).hasUnknownBase = (g n).hasUnknownBase :=
    fun n => h.same n _ fun _ => rfl
  have src : ∀ n, (g' n).arraycopySrc = (g n).arraycopySrc := fun n => h.same n _ fun _ => rfl
  have dst : ∀ n, (g' n).arraycopyDst = (g n).arraycopyDst := fun n => h.same n _ fun _ => rfl
  have es : ∀ n, (g' n).escapeState = (g n).escapeState := fun n => h.same n _ fun _ => rfl
  have fes : ∀ n, (g' n).fieldsEscapeState = (g n).fieldsEscapeState :=
    fun n => h.same n _ fun _ => rfl
  constructor <;> simp only [type, ideal, edges, unknownPtr, unknownBase, src, dst, es, fes]
  case mem_uses =>
    intro n e
    rw [h.mem_uses, hg.mem_uses]
    refine or_iff_left ?_
    rintro ⟨-, hu⟩
    cases hu
  case mem_base_uses =>
    intro f b
    rw [h.mem_uses, h.mem_bases, hg.mem_base_uses]
    constructor
    · rintro (⟨hb, ht⟩ | ⟨rfl, hu⟩)
      · exact ⟨.inl hb, ht⟩
      · obtain rfl := Use.base.inj hu
        refine ⟨.inr ⟨rfl, rfl⟩, ?_⟩
        rw [hbase]
        decide
    · rintro ⟨hb | ⟨rfl, rfl⟩, ht⟩
      · exact .inl ⟨hb, ht⟩
      · exact .inr ⟨rfl, rfl⟩
  case mem_object_edges =>
    intro f b hb hf
    rw [h.mem_bases, hg.mem_object_edges f b hb hf]
    refine and_congr_left fun _ => (or_iff_left ?_).symm
    rintro ⟨-, rfl⟩
    exact absurd (hb.symm.trans hbase) (by decide)
  case bases_field =>
    intro f b hb
    obtain hb | ⟨rfl, rfl⟩ := (h.mem_bases f b).1 hb
    · exact hg.bases_field f b hb
    · exact ⟨hfield, .inr hbase⟩
  case object_edges => exact hg.object_edges
  case unknownPtr => exact hg.unknownPtr
  case unknownBase =>
    intro f
    rw [h.mem_bases, hg.unknownBase]
    refine (or_iff_left ?_).symm
    rintro ⟨-, rfl⟩
    exact absurd (hg.phantom_type.symm.trans hbase) (by decide)
  case arraycopySrc => exact hg.arraycopySrc
  case arraycopyDst => exact hg.arraycopyDst
  case arraycopy_dst_type => exact hg.arraycopy_dst_type
  case phantom_type => exact hg.phantom_type
  case phantom_escapes => exact hg.phantom_escapes
  case null_type => exact hg.null_type
  case null_ideal => exact hg.null_ideal
  case null_edges => exact hg.null_edges
  case null_flags => exact hg.null_flags
  case state_le => exact hg.state_le

end StackAllocation
