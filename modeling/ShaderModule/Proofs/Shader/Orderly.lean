import ShaderModule.Proofs.Record.Reload
import ShaderModule.Proofs.Shader.Reachable

/-!
# Side-tables stay in order

The maps among the side-tables of a reachable module are in the order of their keys, and every
element of a signature has its position as id. Therefore tables without reserved option bits, whose
lists and signatures hold no more records than there are ids, can be found again after they were
written.
-/

namespace ShaderModule

/-- The id of every element is its position. -/
def Signature.InOrder (x : Signature) : Prop := allShape (fun i e => e.id = UInt32.ofNat i) x

/-- The maps are in the order of their keys, and the ids of elements are their positions. -/
structure Tables.Orderly (t : Tables) : Prop where
  structs       : t.types.structs.Sorted
  functions     : t.types.functions.Sorted
  props         : Ordered.Sorted t.props
  resourceTypes : Ordered.Sorted t.resourceTypes
  signatures    : ∀ kind, (t.signatures.get kind).InOrder

namespace Signature

theorem inOrder_nil : InOrder [] := by
  intro x i hx
  cases hx

theorem inOrder_push {x : Signature} (h : x.InOrder) (e : Element) : InOrder (x.push e).2 := by
  intro y i hy
  rw [push, List.zipIdx_append, List.mem_append] at hy
  rcases hy with hy | hy
  · exact h y i hy
  · simp only [List.zipIdx_singleton, List.mem_singleton, Prod.mk.injEq, Nat.zero_add] at hy
    obtain ⟨rfl, rfl⟩ := hy
    rfl

/-- Ids do not repeat in a signature of at most as many elements as there are ids. -/
theorem placed_of_inOrder {x : Signature} (h : x.InOrder) (hlen : x.length ≤ UInt32.size) :
    allShape Element.Placed x := by
  intro e i he
  have hi : i < UInt32.size := Nat.lt_of_lt_of_le (List.mem_zipIdx' he).1 hlen
  show e.id.toNat = i
  rw [h e i he]
  exact UInt32.toNat_ofNat_of_lt' hi

end Signature

theorem Signatures.get_set_of_ne {kind k : SignatureKind} (h : kind ≠ k) (x : Signatures) (y : Signature) :
    (x.set k y).get kind = x.get kind := by
  cases kind <;> cases k <;> first | rfl | exact absurd rfl h

namespace Tables

variable {t : Tables}

theorem orderly_empty : Orderly .empty := by
  refine ⟨.nil, .nil, .nil, .nil, ?_⟩
  rintro (_ | _ | _)
  all_goals exact Signature.inOrder_nil

theorem Orderly.setSignature (h : t.Orderly) (kind : SignatureKind) {x : Signature} (hx : x.InOrder) :
    Orderly { t with signatures := t.signatures.set kind x } := by
  refine ⟨h.structs, h.functions, h.props, h.resourceTypes, ?_⟩
  intro k
  by_cases hk : k = kind
  · rw [hk, Signatures.get_set]
    exact hx
  · rw [Signatures.get_set_of_ne hk]
    exact h.signatures k

theorem Orderly.forgetGlobal (h : t.Orderly) (g : Handle .global) : (t.forgetGlobal g).Orderly :=
  ⟨h.structs, h.functions, Ordered.sorted_mapValues h.props _, h.resourceTypes, h.signatures⟩

theorem Orderly.unbind (h : t.Orderly) (gs : List (Handle .global)) : (t.unbind gs).Orderly :=
  ⟨h.structs, h.functions, h.props, h.resourceTypes, h.signatures⟩

theorem Orderly.forgetFunction (h : t.Orderly) (f : Handle .function) : (t.forgetFunction f).Orderly :=
  ⟨h.structs, Ordered.sorted_erase h.functions f,
    Ordered.sorted_mapValues (Ordered.sorted_erase h.props f) _, h.resourceTypes, h.signatures⟩

/-- Tables that were loaded were entered in order. -/
theorem orderly_of_load {p : Program} (h : load p = .ok t) : t.Orderly := by
  obtain ⟨hw, -⟩ := wellFormed_of_load h
  refine ⟨hw.structs, hw.functions, hw.props, hw.resourceTypes, ?_⟩
  intro kind x i hx
  rw [← hw.signatures kind x i hx, UInt32.ofNat_toNat]

/-- Orderly tables that fit the schema are found again. -/
theorem Orderly.wellFormed (h : t.Orderly) (hoptions : Options.reserved t.options.bits = 0)
    (hresources : t.resources.Bounded) (hlen : ∀ kind, (t.signatures.get kind).length ≤ UInt32.size) :
    t.WellFormed :=
  ⟨h.structs, h.functions, h.props, h.resourceTypes,
    fun kind => Signature.placed_of_inOrder (h.signatures kind) (hlen kind), hoptions, hresources⟩

end Tables

/-! ## Actions that keep the order -/

namespace Act

variable {α : Type} {P : Tables → Prop}

/-- The tables keep `P` from one module to another. -/
def KeepsTables (P : Tables → Prop) (s s' : Shader) : Prop := P s.tables → P s'.tables

instance : Std.Refl (KeepsTables P) := ⟨fun _ h => h⟩

instance : IsTrans Shader (KeepsTables P) := ⟨fun _ _ _ h h' => h' ∘ h⟩

/-- Whatever becomes of the action, the tables keep `P`. -/
abbrev Keeps (P : Tables → Prop) (a : Act α) : Prop := Along (KeepsTables P) a

theorem keeps_onTables {f : Tables → Tables} (hf : ∀ t, P t → P (f t)) : Keeps P (Shader.onTables f) :=
  fun s hs => hf s.tables hs

/-- An edit of the program leaves the tables alone. -/
theorem keeps_onProgram (e : Edit ShaderError α) : Keeps P (Shader.onProgram e) := by
  intro s hs
  simp only [Shader.onProgram]
  cases e s.program with
  | ok a p => exact hs
  | error c p => exact hs

theorem keeps_debugIndex : Keeps P Shader.debugIndex := fun _ hs => hs

theorem keeps_relocate (move : DebugAct (Handle .debugVariable)) : Keeps P (Shader.relocate move) := by
  refine .bind keeps_debugIndex fun x s hs => ?_
  rw [Shader.after_onDebug]
  exact hs

end Act

/-! ## Every operation keeps the order -/

namespace Shader

open Act

variable {s : Shader}

theorem keeps_dropGlobal (g : Handle .global) : Keeps Tables.Orderly (dropGlobal g) := by
  unfold dropGlobal
  refine .bind (keeps_onTables fun t h => h.forgetGlobal g) fun _ => .bind .get fun s => ?_
  split
  · exact .discard (keeps_onProgram _)
  · exact .pure _

theorem keeps_removeResources (globals : List (Handle .global)) :
    Keeps Tables.Orderly (removeResources globals) := by
  refine .bind .get fun s => .bind (keeps_onTables fun t h => h.unbind globals) fun _ => ?_
  exact .bind (.forM keeps_dropGlobal _) fun _ => .pure _

theorem keeps_removeGlobal (g : Handle .global) : Keeps Tables.Orderly (removeGlobal g) := by
  refine .bind (keeps_onTables fun t h => ?_) fun _ => .discard (keeps_onProgram _)
  exact (h.unbind [g]).forgetGlobal g

theorem keeps_removeFunction (f : Handle .function) : Keeps Tables.Orderly (removeFunction f) := by
  refine .bind (keeps_onTables fun t h => ?_) fun _ => .discard (keeps_onProgram _)
  exact h.forgetFunction f

theorem keeps_emit : Keeps Tables.Orderly emit := .bind .get fun _ => keeps_onProgram _

theorem keeps_clear : Keeps Tables.Orderly clear := by
  intro s hs
  unfold clear
  rw [after_modify]
  exact hs

/-- No operation on a module disturbs the order of its side-tables. -/
theorem orderly_apply (op : ShaderOp) (h : s.tables.Orderly) : (op.apply s).tables.Orderly := by
  -- Maps change through insertion, modification and erasure, and elements are only added at the end.
  cases op with
  | program | debugIndex | addDebugRecord | replaceDebugRecord => exact h
  | setProfile | setOptions | setEntry | setEntryName | setUsed | addResource | setRootSignature
  | releaseRootSignature =>
    exact ⟨h.structs, h.functions, h.props, h.resourceTypes, h.signatures⟩
  | modifyResource k index change =>
    simp only [ShaderOp.apply, modifyResource]
    cases s.resource k index with
    | ok x => exact ⟨h.structs, h.functions, h.props, h.resourceTypes, h.signatures⟩
    | error cause => exact h
  | removeResources globals => exact keeps_removeResources globals s h
  | removeGlobal g => exact keeps_removeGlobal g s h
  | removeFunction f => exact keeps_removeFunction f s h
  | addShared g =>
    simp only [ShaderOp.apply, addShared]
    split
    · exact h
    · split
      · exact h
      · exact ⟨h.structs, h.functions, h.props, h.resourceTypes, h.signatures⟩
  | appendElement kind e => exact h.setSignature kind (Signature.inOrder_push (h.signatures kind) e)
  | releaseSignature kind => exact h.setSignature kind Signature.inOrder_nil
  | addProps f x =>
    exact ⟨h.structs, h.functions, Ordered.sorted_insert h.props f x, h.resourceTypes, h.signatures⟩
  | modifyProps f stage change =>
    simp only [ShaderOp.apply, modifyProps]
    cases s.propsOf f with
    | error cause => exact h
    | ok props =>
      by_cases hstage : props.stage = stage
      · simp only [hstage, if_true, after]
        have hprops := Ordered.sorted_modify h.props f change
        exact ⟨h.structs, h.functions, hprops, h.resourceTypes, h.signatures⟩
      · simp only [hstage, if_false]
        exact h
  | annotateType t cls kind =>
    have hsorted := Ordered.sorted_insert h.resourceTypes t (cls, kind)
    exact ⟨h.structs, h.functions, h.props, hsorted, h.signatures⟩
  | annotateStruct t a =>
    exact ⟨Ordered.sorted_insert h.structs t a, h.functions, h.props, h.resourceTypes, h.signatures⟩
  | modifyStruct t change =>
    have hsorted := Ordered.sorted_modify h.structs t change
    exact ⟨hsorted, h.functions, h.props, h.resourceTypes, h.signatures⟩
  | annotateFunction f a =>
    exact ⟨h.structs, Ordered.sorted_insert h.functions f a, h.props, h.resourceTypes, h.signatures⟩
  | modifyFunction f change =>
    have hsorted := Ordered.sorted_modify h.functions f change
    exact ⟨h.structs, hsorted, h.props, h.resourceTypes, h.signatures⟩
  | dropFunctionInfo f =>
    exact ⟨h.structs, Ordered.sorted_erase h.functions f, h.props, h.resourceTypes, h.signatures⟩
  | releaseTypes => exact ⟨.nil, .nil, h.props, h.resourceTypes, h.signatures⟩
  | emit => exact keeps_emit s h
  | load =>
    simp only [ShaderOp.apply, load]
    cases hload : Tables.load s.program with
    | ok t => exact Tables.orderly_of_load hload
    | error cause => exact h
  | clear => exact keeps_clear s h
  | splitDebugInfo whole piece place suffix => exact keeps_relocate _ s h
  | replaceDebugInfo old new => exact keeps_relocate _ s h
  | reopen => exact Tables.orderly_empty

/-- The side-tables of a reachable module are in order. -/
theorem Reachable.orderly (h : s.Reachable) : s.tables.Orderly :=
  h.induction (P := fun s => s.tables.Orderly) (fun _ => Tables.orderly_empty) fun _ op => orderly_apply op

end Shader

end ShaderModule
