import StackAllocation.ConnectionGraph
import Mathlib.Data.List.Basic

/-!
# Steps of the connection graph

What the functions that change a connection graph do to it, in terms of membership: a new
edge, a new base, a flag. A graph is well formed (`WellFormed`) when edges, uses and bases
record each other and the flags record the edges, which is how graph construction leaves
it and what every step keeps.
-/

namespace StackAllocation

/-- Edges, uses, bases and flags record each other. -/
structure WellFormed (g : Nodes) : Prop where
  mem_uses : ∀ n e, .edge n ∈ (g e).uses ↔
    e ∈ (g n).edges ∧ ¬ ((g n).type = .javaObject ∧ (g e).type = .field)
  mem_base_uses : ∀ f b, .base f ∈ (g b).uses ↔ b ∈ (g f).bases ∧ (g b).type ≠ .javaObject
  mem_object_edges : ∀ f b, (g b).type = .javaObject → (g f).type = .field →
    (f ∈ (g b).edges ↔ b ∈ (g f).bases ∧ b ≠ nullObj)
  bases_field : ∀ f b, b ∈ (g f).bases →
    (g f).type = .field ∧ ((g b).type = .javaObject ∨ (g b).type = .localVar)
  object_edges : ∀ n e, (g n).type = .javaObject → e ∈ (g n).edges →
    (g e).type = .field ∨ (g e).type = .arraycopy
  unknownPtr : ∀ n, (g n).hasUnknownPtr = true ↔ phantomObj ∈ (g n).edges
  unknownBase : ∀ f, (g f).hasUnknownBase = true ↔ phantomObj ∈ (g f).bases
  arraycopySrc : ∀ ac s, (g ac).type = .arraycopy → s ∈ (g ac).edges →
    (g s).arraycopySrc = true
  arraycopyDst : ∀ d ac, (g ac).type = .arraycopy → ac ∈ (g d).edges →
    (g d).arraycopyDst = true
  arraycopy_dst_type : ∀ d ac, (g ac).type = .arraycopy → ac ∈ (g d).edges →
    (g d).type = .javaObject ∨ (g d).type = .localVar
  phantom_type : (g phantomObj).type = .javaObject
  phantom_escapes : (g phantomObj).escapeState = .globalEscape ∧
    (g phantomObj).fieldsEscapeState = .globalEscape
  null_type : (g nullObj).type = .javaObject
  null_ideal : (g nullObj).ideal = .nullConP
  null_edges : (g nullObj).edges = []
  null_flags : (g nullObj).arraycopySrc = false ∧ (g nullObj).arraycopyDst = false
  state_le : ∀ n, (g n).escapeState.toNat ≤ (g n).fieldsEscapeState.toNat

/-! ## New edges

What `add_edge` does is said by membership: one edge is new and everything else is as before. The
order within a list is left out, as nothing depends on it. -/

/-- A node but for its edges. -/
def PointsToNode.withoutEdges (n : PointsToNode) : PointsToNode :=
  { n with edges := [], uses := [], hasUnknownPtr := false }

/-- The graph has one more edge. -/
structure EdgeAdded (src dst : ℕ) (g g' : Nodes) : Prop where
  rest : ∀ n, (g' n).withoutEdges = (g n).withoutEdges
  mem_edges : ∀ n e, e ∈ (g' n).edges ↔ e ∈ (g n).edges ∨ n = src ∧ e = dst
  mem_uses : ∀ n u, u ∈ (g' n).uses ↔ u ∈ (g n).uses ∨ n = dst ∧ u = .edge src
  unknownPtr : ∀ n, (g' n).hasUnknownPtr = true ↔
    (g n).hasUnknownPtr = true ∨ n = src ∧ dst = phantomObj

namespace EdgeAdded

variable {src dst : ℕ} {g g' : Nodes} (h : EdgeAdded src dst g g') (n : ℕ)
include h

/-- What does not depend on edges stays. -/
theorem same {α : Type} (f : PointsToNode → α) (hf : ∀ m, f m.withoutEdges = f m) :
    f (g' n) = f (g n) := by
  rw [← hf, h.rest n, hf]

theorem type : (g' n).type = (g n).type :=
  h.same n PointsToNode.type fun _ => rfl

theorem ideal : (g' n).ideal = (g n).ideal :=
  h.same n PointsToNode.ideal fun _ => rfl

theorem bases : (g' n).bases = (g n).bases :=
  h.same n PointsToNode.bases fun _ => rfl

theorem offset : (g' n).offset = (g n).offset :=
  h.same n PointsToNode.offset fun _ => rfl

theorem isOop : (g' n).isOop = (g n).isOop :=
  h.same n PointsToNode.isOop fun _ => rfl

theorem escapeState : (g' n).escapeState = (g n).escapeState :=
  h.same n PointsToNode.escapeState fun _ => rfl

theorem fieldsEscapeState : (g' n).fieldsEscapeState = (g n).fieldsEscapeState :=
  h.same n PointsToNode.fieldsEscapeState fun _ => rfl

theorem arraycopySrc : (g' n).arraycopySrc = (g n).arraycopySrc :=
  h.same n PointsToNode.arraycopySrc fun _ => rfl

theorem arraycopyDst : (g' n).arraycopyDst = (g n).arraycopyDst :=
  h.same n PointsToNode.arraycopyDst fun _ => rfl

theorem hasUnknownBase : (g' n).hasUnknownBase = (g n).hasUnknownBase :=
  h.same n PointsToNode.hasUnknownBase fun _ => rfl

end EdgeAdded

/-- The nodes of a graph with one more edge. -/
def withEdge (g : Nodes) (src dst : ℕ) : Nodes := fun n =>
  { g n with
    edges := if n = src then (g n).edges ++ [dst] else (g n).edges
    uses := if n = dst then (g n).uses ++ [.edge src] else (g n).uses
    hasUnknownPtr := (g n).hasUnknownPtr || decide (n = src ∧ dst = phantomObj) }

theorem withEdge_edgeAdded (g : Nodes) (src dst : ℕ) :
    EdgeAdded src dst g (withEdge g src dst) where
  rest n := rfl
  mem_edges n e := by
    by_cases hn : n = src <;> simp [withEdge, hn]
  mem_uses n u := by
    by_cases hn : n = dst <;> simp [withEdge, hn]
  unknownPtr n := by simp [withEdge]

/-- What `add_edge` does: nothing if there is such an edge. -/
theorem addEdge_cases {g : Nodes} (hg : WellFormed g) {src dst : ℕ}
    (hpair : ¬ ((g src).type = .javaObject ∧ (g dst).type = .field)) :
    (dst ∈ (g src).edges ∧ addEdge g src dst = (false, g)) ∨
    (dst ∉ (g src).edges ∧ ∃ g', addEdge g src dst = (true, g') ∧ EdgeAdded src dst g g') := by
  have hunknown := hg.unknownPtr src
  by_cases hmem : dst ∈ (g src).edges
  · refine .inl ⟨hmem, ?_⟩
    by_cases hp : dst = phantomObj
    · subst hp
      simp [addEdge, hunknown.2 hmem]
    · simp [addEdge, hp, PointsToNode.addEdge, hmem]
  · refine .inr ⟨hmem, withEdge g src dst, ?_, withEdge_edgeAdded g src dst⟩
    have huse : .edge src ∉ (g dst).uses := fun h => hmem ((hg.mem_uses src dst).1 h).1
    have hflag : dst = phantomObj → (g src).hasUnknownPtr = false := by
      rintro rfl
      simpa using fun h => hmem (hunknown.1 h)
    have hnode : ∀ n : PointsToNode, n.edges = (g src).edges →
        n.addEdge dst = (true, { n with edges := n.edges ++ [dst] }) := by
      intro n hn
      simp [PointsToNode.addEdge, hn, hmem]
    have hend : ∀ g₁ : Nodes, (∀ n, n ≠ src → g₁ n = g n) →
        g₁ src = { g src with
          edges := (g src).edges ++ [dst]
          hasUnknownPtr := (g src).hasUnknownPtr || decide (dst = phantomObj) } →
        ((g₁ dst).addUse (.edge src)).1 = true ∧
          Function.update g₁ dst ((g₁ dst).addUse (.edge src)).2 = withEdge g src dst := by
      intro g₁ hother hsrc
      have huses : (g₁ dst).uses = (g dst).uses := by
        by_cases hds : dst = src
        · rw [hds, hsrc]
        · rw [hother dst hds]
      simp only [PointsToNode.addUse, huses, if_neg huse, true_and]
      funext n
      by_cases hnd : n = dst
      · subst hnd
        by_cases hns : n = src
        · subst hns
          simp [withEdge, hsrc]
        · simp [withEdge, hns, hother n hns]
      · by_cases hns : n = src
        · subst hns
          simp [withEdge, hnd, hsrc]
        · simp [withEdge, hns, hnd, hother n hns]
    by_cases hp : dst = phantomObj
    · have hunk := hflag hp
      simp only [addEdge, hp, hunk, Bool.false_eq_true, and_false, if_false, if_true]
      rw [Function.update_self, ← hp, hnode { g src with hasUnknownPtr := true } rfl]
      obtain ⟨h₁, h₂⟩ := hend
        (Function.update (Function.update g src { g src with hasUnknownPtr := true }) src
          { g src with edges := (g src).edges ++ [dst], hasUnknownPtr := true })
        (fun n hn => by simp [hn]) (by simp [hp])
      exact Prod.ext h₁ h₂
    · simp only [addEdge, hp, false_and, if_false, hnode (g src) rfl]
      obtain ⟨h₁, h₂⟩ := hend (Function.update g src { g src with edges := (g src).edges ++ [dst] })
        (fun n hn => by simp [hn]) (by simp [hp])
      exact Prod.ext h₁ h₂

/-- A new edge keeps the graph well formed, if the flag for an arraycopy is set. Its destination
may be a local variable. -/
theorem WellFormed.edgeAdded_of_dst {g g' : Nodes} {src dst : ℕ} (hg : WellFormed g)
    (h : EdgeAdded src dst g g') (hnull : src ≠ nullObj)
    (hsrc : (g src).type = .javaObject → (g dst).type = .arraycopy)
    (hcopySrc : (g src).type = .arraycopy → (g dst).arraycopySrc = true)
    (hcopyDst : (g dst).type = .arraycopy → (g src).arraycopyDst = true ∧
      ((g src).type = .javaObject ∨ (g src).type = .localVar)) : WellFormed g' where
  mem_uses n e := by
    rw [h.mem_uses, h.mem_edges, h.type, h.type, hg.mem_uses]
    constructor
    · rintro (⟨he, hpair⟩ | ⟨rfl, huse⟩)
      · exact ⟨.inl he, hpair⟩
      · obtain rfl := Use.edge.inj huse
        refine ⟨.inr ⟨rfl, rfl⟩, fun hpair => ?_⟩
        have := hsrc hpair.1
        rw [hpair.2] at this
        exact absurd this (by decide)
    · rintro ⟨he | ⟨rfl, rfl⟩, hpair⟩
      · exact .inl ⟨he, hpair⟩
      · exact .inr ⟨rfl, rfl⟩
  mem_base_uses f b := by
    rw [h.mem_uses, h.bases, h.type, hg.mem_base_uses]
    simp
  mem_object_edges f b hb hf := by
    rw [h.type] at hb hf
    rw [h.mem_edges, h.bases, hg.mem_object_edges f b hb hf]
    constructor
    · rintro (hmem | ⟨rfl, rfl⟩)
      · exact hmem
      · have := hsrc hb
        rw [hf] at this
        exact absurd this (by decide)
    · exact .inl
  bases_field f b hb := by
    rw [h.bases] at hb
    rw [h.type, h.type]
    exact hg.bases_field f b hb
  object_edges n e hn he := by
    rw [h.type] at hn ⊢
    obtain he | ⟨rfl, rfl⟩ := (h.mem_edges n e).1 he
    · exact hg.object_edges n e hn he
    · exact .inr (hsrc hn)
  unknownPtr n := by
    rw [h.unknownPtr, h.mem_edges, hg.unknownPtr]
    exact or_congr_right (and_congr_right fun _ => eq_comm)
  unknownBase f := by
    rw [h.hasUnknownBase, h.bases, hg.unknownBase]
  arraycopySrc ac s hac hs := by
    rw [h.type] at hac
    rw [h.arraycopySrc]
    obtain hs | ⟨rfl, rfl⟩ := (h.mem_edges ac s).1 hs
    · exact hg.arraycopySrc ac s hac hs
    · exact hcopySrc hac
  arraycopyDst d ac hac hd := by
    rw [h.type] at hac
    rw [h.arraycopyDst]
    obtain hd | ⟨rfl, rfl⟩ := (h.mem_edges d ac).1 hd
    · exact hg.arraycopyDst d ac hac hd
    · exact (hcopyDst hac).1
  arraycopy_dst_type d ac hac hd := by
    rw [h.type] at hac ⊢
    obtain hd | ⟨rfl, rfl⟩ := (h.mem_edges d ac).1 hd
    · exact hg.arraycopy_dst_type d ac hac hd
    · exact (hcopyDst hac).2
  phantom_type := by rw [h.type]; exact hg.phantom_type
  phantom_escapes := by
    rw [h.escapeState, h.fieldsEscapeState]
    exact hg.phantom_escapes
  null_type := by rw [h.type]; exact hg.null_type
  null_ideal := by rw [h.ideal]; exact hg.null_ideal
  null_edges := by
    refine List.eq_nil_iff_forall_not_mem.2 fun e he => ?_
    obtain he | ⟨hn, -⟩ := (h.mem_edges nullObj e).1 he
    · rw [hg.null_edges] at he
      exact absurd he List.not_mem_nil
    · exact hnull hn.symm
  null_flags := by
    rw [h.arraycopySrc, h.arraycopyDst]
    exact hg.null_flags
  state_le n := by
    rw [h.escapeState, h.fieldsEscapeState]
    exact hg.state_le n

/-- A new edge keeps the graph well formed, if the flag for an arraycopy is set. -/
theorem WellFormed.edgeAdded {g g' : Nodes} {src dst : ℕ} (hg : WellFormed g)
    (h : EdgeAdded src dst g g') (hnull : src ≠ nullObj)
    (hsrc : (g src).type = .javaObject → (g dst).type = .arraycopy)
    (hcopySrc : (g src).type = .arraycopy → (g dst).arraycopySrc = true)
    (hcopyDst : (g dst).type = .arraycopy →
      (g src).arraycopyDst = true ∧ (g src).type = .javaObject) : WellFormed g' :=
  hg.edgeAdded_of_dst h hnull hsrc hcopySrc fun hac =>
    ⟨(hcopyDst hac).1, .inl (hcopyDst hac).2⟩

/-! ## New bases

What `add_base` does, in the same way. A base that is an object makes the field one of its edges. -/

/-- A node but for its edges and bases. -/
def PointsToNode.withoutBases (n : PointsToNode) : PointsToNode :=
  { n with edges := [], bases := [], hasUnknownBase := false }

/-- A field has one more base, an object. -/
structure BaseAdded (field base : ℕ) (g g' : Nodes) : Prop where
  rest : ∀ n, (g' n).withoutBases = (g n).withoutBases
  mem_bases : ∀ n b, b ∈ (g' n).bases ↔ b ∈ (g n).bases ∨ n = field ∧ b = base
  mem_edges : ∀ n e, e ∈ (g' n).edges ↔
    e ∈ (g n).edges ∨ n = base ∧ e = field ∧ base ≠ nullObj
  unknownBase : ∀ n, (g' n).hasUnknownBase = true ↔
    (g n).hasUnknownBase = true ∨ n = field ∧ base = phantomObj

namespace BaseAdded

variable {field base : ℕ} {g g' : Nodes} (h : BaseAdded field base g g') (n : ℕ)
include h

/-- What does not depend on edges and bases stays. -/
theorem same {α : Type} (f : PointsToNode → α) (hf : ∀ m, f m.withoutBases = f m) :
    f (g' n) = f (g n) := by
  rw [← hf, h.rest n, hf]

theorem type : (g' n).type = (g n).type :=
  h.same n PointsToNode.type fun _ => rfl

theorem ideal : (g' n).ideal = (g n).ideal :=
  h.same n PointsToNode.ideal fun _ => rfl

theorem uses : (g' n).uses = (g n).uses :=
  h.same n PointsToNode.uses fun _ => rfl

theorem offset : (g' n).offset = (g n).offset :=
  h.same n PointsToNode.offset fun _ => rfl

theorem isOop : (g' n).isOop = (g n).isOop :=
  h.same n PointsToNode.isOop fun _ => rfl

theorem escapeState : (g' n).escapeState = (g n).escapeState :=
  h.same n PointsToNode.escapeState fun _ => rfl

theorem fieldsEscapeState : (g' n).fieldsEscapeState = (g n).fieldsEscapeState :=
  h.same n PointsToNode.fieldsEscapeState fun _ => rfl

theorem hasUnknownPtr : (g' n).hasUnknownPtr = (g n).hasUnknownPtr :=
  h.same n PointsToNode.hasUnknownPtr fun _ => rfl

theorem arraycopySrc : (g' n).arraycopySrc = (g n).arraycopySrc :=
  h.same n PointsToNode.arraycopySrc fun _ => rfl

theorem arraycopyDst : (g' n).arraycopyDst = (g n).arraycopyDst :=
  h.same n PointsToNode.arraycopyDst fun _ => rfl

end BaseAdded

/-- The nodes of a graph with one more base, an object. -/
def withBase (g : Nodes) (field base : ℕ) : Nodes := fun n =>
  { g n with
    bases := if n = field then (g n).bases ++ [base] else (g n).bases
    edges := if n = base ∧ base ≠ nullObj then (g n).edges ++ [field] else (g n).edges
    hasUnknownBase := (g n).hasUnknownBase || decide (n = field ∧ base = phantomObj) }

theorem withBase_baseAdded (g : Nodes) (field base : ℕ) :
    BaseAdded field base g (withBase g field base) where
  rest n := rfl
  mem_bases n b := by
    by_cases hn : n = field <;> simp [withBase, hn]
  mem_edges n e := by
    by_cases hn : n = base
    · by_cases hnull : base = nullObj <;> simp [withBase, hn, hnull]
    · simp [withBase, hn]
  unknownBase n := by simp [withBase]

/-- What `add_base` does with an object: nothing if it is a base. -/
theorem addBase_cases {g : Nodes} (hg : WellFormed g) {field base : ℕ}
    (hfield : (g field).type = .field) (hbase : (g base).type = .javaObject) :
    (base ∈ (g field).bases ∧ addBase g field base = (false, g)) ∨
    (base ∉ (g field).bases ∧ ∃ g', addBase g field base = (true, g') ∧
      BaseAdded field base g g') := by
  have hunknown := hg.unknownBase field
  have hne : base ≠ field := by
    rintro rfl
    exact absurd (hbase.symm.trans hfield) (by decide)
  by_cases hmem : base ∈ (g field).bases
  · refine .inl ⟨hmem, ?_⟩
    by_cases hp : base = phantomObj
    · subst hp
      simp [addBase, hunknown.2 hmem]
    · simp [addBase, hp, PointsToNode.addBase, hmem]
  · refine .inr ⟨hmem, withBase g field base, ?_, withBase_baseAdded g field base⟩
    have hedge : base ≠ nullObj → field ∉ (g base).edges := fun hnull h =>
      hmem ((hg.mem_object_edges field base hbase hfield).1 h).1
    have hflag : base = phantomObj → (g field).hasUnknownBase = false := by
      rintro rfl
      simpa using fun h => hmem (hunknown.1 h)
    have hnode : ∀ n : PointsToNode, n.bases = (g field).bases →
        n.addBase base = (true, { n with bases := n.bases ++ [base] }) := by
      intro n hn
      simp [PointsToNode.addBase, hn, hmem]
    have hend : ∀ g₁ : Nodes, (∀ n, n ≠ field → g₁ n = g n) →
        g₁ field = { g field with
          bases := (g field).bases ++ [base]
          hasUnknownBase := (g field).hasUnknownBase || decide (base = phantomObj) } →
        (if base = nullObj then (true, g₁)
          else if (g₁ base).type = .javaObject then
            (((g₁ base).addEdge field).1, Function.update g₁ base ((g₁ base).addEdge field).2)
          else
            (((g₁ base).addUse (.base field)).1,
              Function.update g₁ base ((g₁ base).addUse (.base field)).2)) =
          (true, withBase g field base) := by
      intro g₁ hother hg₁
      have hbase₁ : g₁ base = g base := hother base hne
      by_cases hnull : base = nullObj
      · rw [if_pos hnull]
        refine Prod.ext rfl (funext fun n => ?_)
        by_cases hn : n = field
        · subst hn
          simp [withBase, hg₁, hnull]
        · simp [withBase, hn, hother n hn, hnull]
      · rw [if_neg hnull, hbase₁, if_pos hbase]
        simp only [PointsToNode.addEdge, if_neg (hedge hnull)]
        refine Prod.ext rfl (funext fun n => ?_)
        by_cases hnb : n = base
        · subst hnb
          simp [withBase, hne, hnull]
        · by_cases hn : n = field
          · subst hn
            simp [withBase, hnb, hg₁]
          · simp [withBase, hn, hnb, hother n hn]
    by_cases hp : base = phantomObj
    · have hunk := hflag hp
      simp only [addBase, hp, hunk, Bool.false_eq_true, and_false, if_false, if_true]
      rw [Function.update_self, ← hp, hnode { g field with hasUnknownBase := true } rfl]
      exact hend
        (Function.update (Function.update g field { g field with hasUnknownBase := true }) field
          { g field with bases := (g field).bases ++ [base], hasUnknownBase := true })
        (fun n hn => by simp [hn]) (by simp [hp])
    · simp only [addBase, hp, false_and, if_false, hnode (g field) rfl]
      exact hend (Function.update g field { g field with bases := (g field).bases ++ [base] })
        (fun n hn => by simp [hn]) (by simp [hp])

/-- A new base keeps the graph well formed. -/
theorem WellFormed.baseAdded {g g' : Nodes} {field base : ℕ} (hg : WellFormed g)
    (h : BaseAdded field base g g') (hfield : (g field).type = .field)
    (hbase : (g base).type = .javaObject) : WellFormed g' where
  mem_uses n e := by
    rw [h.uses, h.mem_edges, h.type, h.type, hg.mem_uses]
    constructor
    · rintro ⟨he, hpair⟩
      exact ⟨.inl he, hpair⟩
    · rintro ⟨he | ⟨rfl, rfl, -⟩, hpair⟩
      · exact ⟨he, hpair⟩
      · exact absurd ⟨hbase, hfield⟩ hpair
  mem_base_uses f b := by
    rw [h.uses, h.mem_bases, h.type, hg.mem_base_uses]
    constructor
    · rintro ⟨hb, ht⟩
      exact ⟨.inl hb, ht⟩
    · rintro ⟨hb | ⟨rfl, rfl⟩, ht⟩
      · exact ⟨hb, ht⟩
      · exact absurd hbase ht
  mem_object_edges f b hb hf := by
    rw [h.type] at hb hf
    rw [h.mem_edges, h.mem_bases, hg.mem_object_edges f b hb hf]
    constructor
    · rintro (⟨hmem, hnull⟩ | ⟨rfl, rfl, hnull⟩)
      · exact ⟨.inl hmem, hnull⟩
      · exact ⟨.inr ⟨rfl, rfl⟩, hnull⟩
    · rintro ⟨hmem | ⟨rfl, rfl⟩, hnull⟩
      · exact .inl ⟨hmem, hnull⟩
      · exact .inr ⟨rfl, rfl, hnull⟩
  bases_field f b hb := by
    rw [h.type, h.type]
    obtain hb | ⟨rfl, rfl⟩ := (h.mem_bases f b).1 hb
    · exact hg.bases_field f b hb
    · exact ⟨hfield, .inl hbase⟩
  object_edges n e hn he := by
    rw [h.type] at hn ⊢
    obtain he | ⟨rfl, rfl, -⟩ := (h.mem_edges n e).1 he
    · exact hg.object_edges n e hn he
    · exact .inl hfield
  unknownPtr n := by
    rw [h.hasUnknownPtr, h.mem_edges, hg.unknownPtr]
    refine ⟨.inl, ?_⟩
    rintro (hmem | ⟨-, rfl, -⟩)
    · exact hmem
    · exact absurd (hg.phantom_type.symm.trans hfield) (by decide)
  unknownBase f := by
    rw [h.unknownBase, h.mem_bases, hg.unknownBase]
    exact or_congr_right (and_congr_right fun _ => eq_comm)
  arraycopySrc ac s hac hs := by
    rw [h.type] at hac
    rw [h.arraycopySrc]
    obtain hs | ⟨rfl, -, -⟩ := (h.mem_edges ac s).1 hs
    · exact hg.arraycopySrc ac s hac hs
    · exact absurd (hac.symm.trans hbase) (by decide)
  arraycopyDst d ac hac hd := by
    rw [h.type] at hac
    rw [h.arraycopyDst]
    obtain hd | ⟨-, rfl, -⟩ := (h.mem_edges d ac).1 hd
    · exact hg.arraycopyDst d ac hac hd
    · exact absurd (hac.symm.trans hfield) (by decide)
  arraycopy_dst_type d ac hac hd := by
    rw [h.type] at hac ⊢
    obtain hd | ⟨-, rfl, -⟩ := (h.mem_edges d ac).1 hd
    · exact hg.arraycopy_dst_type d ac hac hd
    · exact absurd (hac.symm.trans hfield) (by decide)
  phantom_type := by rw [h.type]; exact hg.phantom_type
  phantom_escapes := by
    rw [h.escapeState, h.fieldsEscapeState]
    exact hg.phantom_escapes
  null_type := by rw [h.type]; exact hg.null_type
  null_ideal := by rw [h.ideal]; exact hg.null_ideal
  null_edges := by
    refine List.eq_nil_iff_forall_not_mem.2 fun e he => ?_
    obtain he | ⟨hn, -, hnull⟩ := (h.mem_edges nullObj e).1 he
    · rw [hg.null_edges] at he
      exact absurd he List.not_mem_nil
    · exact hnull hn.symm
  null_flags := by
    rw [h.arraycopySrc, h.arraycopyDst]
    exact hg.null_flags
  state_le n := by
    rw [h.escapeState, h.fieldsEscapeState]
    exact hg.state_le n

/-! ## Flags

The flags of arraycopies. They tell only which nodes are sources or destinations, so edges and
states stay. -/

/-- A node but for the flags of arraycopies. -/
def PointsToNode.withoutFlags (n : PointsToNode) : PointsToNode :=
  { n with arraycopySrc := false, arraycopyDst := false }

/-- Flags are set, not those of the null object. -/
structure FlagsSet (g g' : Nodes) : Prop where
  rest : ∀ n, (g' n).withoutFlags = (g n).withoutFlags
  arraycopySrc : ∀ n, (g n).arraycopySrc = true → (g' n).arraycopySrc = true
  arraycopyDst : ∀ n, (g n).arraycopyDst = true → (g' n).arraycopyDst = true
  null : g' nullObj = g nullObj

/-- What does not depend on the flags is as before. -/
theorem FlagsSet.same {g g' : Nodes} (h : FlagsSet g g') (n : ℕ) {α : Type}
    (f : PointsToNode → α) (hf : ∀ m, f m.withoutFlags = f m) : f (g' n) = f (g n) := by
  rw [← hf, h.rest n, hf]

/-- The source of an arraycopy is marked. -/
theorem setArraycopySrc_flagsSet (g : Nodes) {n : ℕ} (hn : n ≠ nullObj) :
    FlagsSet g (setArraycopySrc g n) where
  rest m := by
    by_cases hm : m = n
    · subst hm
      simp [setArraycopySrc, PointsToNode.withoutFlags]
    · simp [setArraycopySrc, hm]
  arraycopySrc m hm := by
    by_cases hmn : m = n
    · simp [setArraycopySrc, hmn]
    · simpa [setArraycopySrc, hmn] using hm
  arraycopyDst m hm := by
    by_cases hmn : m = n
    · subst hmn
      simpa [setArraycopySrc] using hm
    · simpa [setArraycopySrc, hmn] using hm
  null := by simp [setArraycopySrc, Ne.symm hn]

/-- The destination of an arraycopy is marked. -/
theorem setArraycopyDst_flagsSet (g : Nodes) {n : ℕ} (hn : n ≠ nullObj) :
    FlagsSet g (setArraycopyDst g n) where
  rest m := by
    by_cases hm : m = n
    · subst hm
      simp [setArraycopyDst, PointsToNode.withoutFlags]
    · simp [setArraycopyDst, hm]
  arraycopySrc m hm := by
    by_cases hmn : m = n
    · subst hmn
      simpa [setArraycopyDst] using hm
    · simpa [setArraycopyDst, hmn] using hm
  arraycopyDst m hm := by
    by_cases hmn : m = n
    · simp [setArraycopyDst, hmn]
    · simpa [setArraycopyDst, hmn] using hm
  null := by simp [setArraycopyDst, Ne.symm hn]

/-- A node after the source of an arraycopy was marked. The null object is never marked. -/
theorem setArraycopySrc_apply (g : Nodes) (n m : ℕ) : setArraycopySrc g n m =
    { g m with arraycopySrc := (g m).arraycopySrc || decide (m = n) } := by
  by_cases hm : m = n
  · subst hm
    simp [setArraycopySrc]
  · simp [setArraycopySrc, hm]

/-- A node after the destination of an arraycopy was marked. -/
theorem setArraycopyDst_apply (g : Nodes) (n m : ℕ) : setArraycopyDst g n m =
    { g m with arraycopyDst := (g m).arraycopyDst || decide (m = n) } := by
  by_cases hm : m = n
  · subst hm
    simp [setArraycopyDst]
  · simp [setArraycopyDst, hm]

/-- A flag set after an edge is added can be set before. -/
theorem EdgeAdded.setArraycopySrc {g g' : Nodes} {src dst : ℕ} (h : EdgeAdded src dst g g')
    (n : ℕ) : EdgeAdded src dst (setArraycopySrc g n) (setArraycopySrc g' n) := by
  constructor <;> intro m <;> simp only [setArraycopySrc_apply]
  · have hrest := congrArg
      (fun k => { k with arraycopySrc := k.arraycopySrc || decide (m = n) }) (h.rest m)
    exact hrest
  · exact h.mem_edges m
  · exact h.mem_uses m
  · exact h.unknownPtr m

/-- A flag can be set before an edge is added as well as after it. -/
theorem EdgeAdded.setArraycopyDst {g g' : Nodes} {src dst : ℕ} (h : EdgeAdded src dst g g')
    (n : ℕ) : EdgeAdded src dst (setArraycopyDst g n) (setArraycopyDst g' n) := by
  constructor <;> intro m <;> simp only [setArraycopyDst_apply]
  · have hrest := congrArg
      (fun k => { k with arraycopyDst := k.arraycopyDst || decide (m = n) }) (h.rest m)
    exact hrest
  · exact h.mem_edges m
  · exact h.mem_uses m
  · exact h.unknownPtr m

/-! ## Escape states

A state that is set is the greater of the two. The null object is never touched. -/

/-- A node but for its escape states. -/
def PointsToNode.withoutStates (n : PointsToNode) : PointsToNode :=
  { n with escapeState := .unknown, fieldsEscapeState := .unknown }

/-- Escape states are raised, not those of the null object. -/
structure StatesRaised (g g' : Nodes) : Prop where
  rest : ∀ n, (g' n).withoutStates = (g n).withoutStates
  escapeState : ∀ n, (g n).escapeState.toNat ≤ (g' n).escapeState.toNat
  fieldsEscapeState : ∀ n, (g n).fieldsEscapeState.toNat ≤ (g' n).fieldsEscapeState.toNat
  null : g' nullObj = g nullObj

/-- What does not depend on the escape states is as before. -/
theorem StatesRaised.same {g g' : Nodes} (h : StatesRaised g g') (n : ℕ) {α : Type}
    (f : PointsToNode → α) (hf : ∀ m, f m.withoutStates = f m) : f (g' n) = f (g n) := by
  rw [← hf, h.rest n, hf]

theorem StatesRaised.refl (g : Nodes) : StatesRaised g g :=
  ⟨fun _ => rfl, fun _ => Nat.le_refl _, fun _ => Nat.le_refl _, rfl⟩

/-- States that are raised in several steps. -/
theorem StatesRaised.trans {g₁ g₂ g₃ : Nodes} (h : StatesRaised g₁ g₂) (h' : StatesRaised g₂ g₃) :
    StatesRaised g₁ g₃ :=
  ⟨fun n => (h'.rest n).trans (h.rest n),
    fun n => Nat.le_trans (h.escapeState n) (h'.escapeState n),
    fun n => Nat.le_trans (h.fieldsEscapeState n) (h'.fieldsEscapeState n),
    h'.null.trans h.null⟩

/-- The greater of two escape states. -/
def EscapeState.max (a b : EscapeState) : EscapeState := if a.toNat < b.toNat then b else a

/-- The states are ordered as their numbers, and `max` is that of the order. -/
@[simp] theorem EscapeState.toNat_max (a b : EscapeState) :
    (a.max b).toNat = Max.max a.toNat b.toNat := by
  cases a <;> cases b <;> rfl

/-- A state is raised by `max`, never lowered. -/
theorem EscapeState.toNat_le_max (a b : EscapeState) : a.toNat ≤ (a.max b).toNat := by
  rw [EscapeState.toNat_max]
  exact Nat.le_max_left _ _

/-- A state is known from its number. -/
theorem EscapeState.toNat_inj {a b : EscapeState} (h : a.toNat = b.toNat) : a = b := by
  cases a <;> cases b <;> first | rfl | exact absurd h (by decide)

/-- There are finitely many states, so a state can be raised finitely often. -/
theorem EscapeState.toNat_le (a : EscapeState) : a.toNat ≤ 3 := by
  cases a <;> decide

/-- A node after one was given a state. That of the null object does not change. -/
theorem setEscapeState_apply (g : Nodes) (ptn : ℕ) (esc : EscapeState) (n : ℕ) :
    setEscapeState g ptn esc n =
      if n = ptn ∧ ptn ≠ nullObj then
        { g n with
          escapeState := (g n).escapeState.max esc
          fieldsEscapeState := (g n).fieldsEscapeState.max esc }
      else g n := by
  unfold setEscapeState
  by_cases hnull : ptn = nullObj
  · simp [hnull]
  · by_cases hn : n = ptn
    · subst hn
      simp [hnull, EscapeState.max]
    · simp [hnull, hn]

/-- A node after the fields of one were given a state. -/
theorem setFieldsEscapeState_apply (g : Nodes) (ptn : ℕ) (esc : EscapeState) (n : ℕ) :
    setFieldsEscapeState g ptn esc n =
      if n = ptn ∧ ptn ≠ nullObj then
        { g n with fieldsEscapeState := (g n).fieldsEscapeState.max esc }
      else g n := by
  unfold setFieldsEscapeState
  by_cases hnull : ptn = nullObj
  · simp [hnull]
  · by_cases hn : n = ptn
    · subst hn
      simp [hnull, EscapeState.max]
    · simp [hnull, hn]

/-- To set a state takes the maximum with what is there, so it only raises it. -/
theorem setEscapeState_raised (g : Nodes) (ptn : ℕ) (esc : EscapeState) :
    StatesRaised g (setEscapeState g ptn esc) := by
  constructor
  · intro n
    rw [setEscapeState_apply]
    split <;> rfl
  · intro n
    rw [setEscapeState_apply]
    split
    · exact EscapeState.toNat_le_max _ _
    · exact Nat.le_refl _
  · intro n
    rw [setEscapeState_apply]
    split
    · exact EscapeState.toNat_le_max _ _
    · exact Nat.le_refl _
  · rw [setEscapeState_apply, if_neg]
    rintro ⟨h, h'⟩
    exact h' h.symm

/-- The state of the fields is only raised as well. -/
theorem setFieldsEscapeState_raised (g : Nodes) (ptn : ℕ) (esc : EscapeState) :
    StatesRaised g (setFieldsEscapeState g ptn esc) := by
  constructor
  · intro n
    rw [setFieldsEscapeState_apply]
    split <;> rfl
  · intro n
    rw [setFieldsEscapeState_apply]
    split <;> exact Nat.le_refl _
  · intro n
    rw [setFieldsEscapeState_apply]
    split
    · exact EscapeState.toNat_le_max _ _
    · exact Nat.le_refl _
  · rw [setFieldsEscapeState_apply, if_neg]
    rintro ⟨h, h'⟩
    exact h' h.symm

/-! ## Links stay

Flags and states tell something about nodes that the links do not depend on. So to set the first and
to raise the second keeps the graph well formed, and both for one reason. -/

/-- Where flags are only set and states only raised, the graph stays well formed. -/
theorem WellFormed.of_links {g g' : Nodes} (hg : WellFormed g)
    (hrest : ∀ n, (g' n).withoutFlags.withoutStates = (g n).withoutFlags.withoutStates)
    (hsrc : ∀ n, (g n).arraycopySrc = true → (g' n).arraycopySrc = true)
    (hdst : ∀ n, (g n).arraycopyDst = true → (g' n).arraycopyDst = true)
    (hes : ∀ n, (g n).escapeState.toNat ≤ (g' n).escapeState.toNat)
    (hfes : ∀ n, (g n).fieldsEscapeState.toNat ≤ (g' n).fieldsEscapeState.toNat)
    (hnull : g' nullObj = g nullObj)
    (hle : ∀ n, (g' n).escapeState.toNat ≤ (g' n).fieldsEscapeState.toNat) : WellFormed g' := by
  have same : ∀ {α : Type} (f : PointsToNode → α),
      (∀ m, f m.withoutFlags.withoutStates = f m) → ∀ n, f (g' n) = f (g n) := fun f hf n => by
    rw [← hf, hrest n, hf]
  have type := same PointsToNode.type fun _ => rfl
  have edges := same PointsToNode.edges fun _ => rfl
  have uses := same PointsToNode.uses fun _ => rfl
  have bases := same PointsToNode.bases fun _ => rfl
  have unknownPtr := same PointsToNode.hasUnknownPtr fun _ => rfl
  have unknownBase := same PointsToNode.hasUnknownBase fun _ => rfl
  obtain ⟨hphantom, hphantomFields⟩ := hg.phantom_escapes
  have hes' := hes phantomObj
  have hfes' := hfes phantomObj
  rw [hphantom] at hes'
  rw [hphantomFields] at hfes'
  constructor <;> try simp only [type, edges, uses, bases, unknownPtr, unknownBase, hnull]
  · exact hg.mem_uses
  · exact hg.mem_base_uses
  · exact hg.mem_object_edges
  · exact hg.bases_field
  · exact hg.object_edges
  · exact hg.unknownPtr
  · exact hg.unknownBase
  · exact fun ac s hac hs => hsrc s (hg.arraycopySrc ac s hac hs)
  · exact fun d ac hac hd => hdst d (hg.arraycopyDst d ac hac hd)
  · exact hg.arraycopy_dst_type
  · exact hg.phantom_type
  · exact ⟨EscapeState.toNat_inj (Nat.le_antisymm (EscapeState.toNat_le _) hes'),
      EscapeState.toNat_inj (Nat.le_antisymm (EscapeState.toNat_le _) hfes')⟩
  · exact hg.null_type
  · exact hg.null_ideal
  · exact hg.null_edges
  · exact hg.null_flags
  · exact hle

/-- Setting flags keeps the graph well formed. -/
theorem WellFormed.flagsSet {g g' : Nodes} (hg : WellFormed g) (h : FlagsSet g g') :
    WellFormed g' := by
  have es : ∀ n, (g' n).escapeState = (g n).escapeState := fun n => h.same n _ fun _ => rfl
  have fes : ∀ n, (g' n).fieldsEscapeState = (g n).fieldsEscapeState :=
    fun n => h.same n _ fun _ => rfl
  refine hg.of_links (fun n => congrArg PointsToNode.withoutStates (h.rest n)) h.arraycopySrc
    h.arraycopyDst (fun n => Nat.le_of_eq (congrArg EscapeState.toNat (es n).symm))
    (fun n => Nat.le_of_eq (congrArg EscapeState.toNat (fes n).symm)) h.null fun n => ?_
  rw [es, fes]
  exact hg.state_le n

/-- Raising states keeps the graph well formed. -/
theorem WellFormed.statesRaised {g g' : Nodes} (hg : WellFormed g) (h : StatesRaised g g')
    (hle : ∀ n, (g' n).escapeState.toNat ≤ (g' n).fieldsEscapeState.toNat) : WellFormed g' := by
  have src : ∀ n, (g' n).arraycopySrc = (g n).arraycopySrc := fun n => h.same n _ fun _ => rfl
  have dst : ∀ n, (g' n).arraycopyDst = (g n).arraycopyDst := fun n => h.same n _ fun _ => rfl
  refine hg.of_links (fun n => congrArg PointsToNode.withoutFlags (h.rest n)) (fun n hn => ?_)
    (fun n hn => ?_) h.escapeState h.fieldsEscapeState h.null hle
  · rwa [src]
  · rwa [dst]

end StackAllocation
