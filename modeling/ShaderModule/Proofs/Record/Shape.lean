import ShaderModule.Proofs.Record.Loading

/-!
# Readers go by shape

Nodes and constants are addressed by numbers, but what is read from metadata does not depend on them. Two
programs have metadata of the same shape if their nodes can be related so that related nodes are alike up
to the numbers in them. Every reader then reads the same from related operands, or fails on both with a
fault that differs in numbers only; so both programs are loaded with the same result. Nothing is asked of
the types, of which only the numbers are read.
-/

namespace ShaderModule

/-! ## Agreeing outcomes -/

/-- Two outcomes agree if both are results, related by `S`, or both are failures, related by `E`. -/
inductive Agree {ε ε' α β : Type} (E : ε → ε' → Prop) (S : α → β → Prop) : Except ε α → Except ε' β → Prop
  | ok {a b} (h : S a b) : Agree E S (.ok a) (.ok b)
  | error {e e'} (h : E e e') : Agree E S (.error e) (.error e')

namespace Agree

variable {ε ε' α β γ δ : Type} {E : ε → ε' → Prop} {S : α → β → Prop} {T : γ → δ → Prop}
  {x : Except ε α} {y : Except ε' β}

theorem bind (h : Agree E S x y) {f : α → Except ε γ} {g : β → Except ε' δ}
    (hfg : ∀ a b, S a b → Agree E T (f a) (g b)) : Agree E T (x >>= f) (y >>= g) := by
  cases h with
  | ok hab => exact hfg _ _ hab
  | error he => exact .error he

/-- Results that are the same are gone on with alike. -/
theorem bindSame {x : Except ε α} {y : Except ε' α} (h : Agree E Eq x y) {f : α → Except ε γ}
    {g : α → Except ε' δ} (hfg : ∀ a, Agree E T (f a) (g a)) : Agree E T (x >>= f) (y >>= g) :=
  h.bind fun a _ hab => hab ▸ hfg a

theorem map {x : Except ε α} {y : Except ε' α} (h : Agree E Eq x y) (f : α → γ) :
    Agree E Eq (f <$> x) (f <$> y) := by
  cases h with
  | ok hab => exact .ok (congrArg f hab)
  | error he => exact .error he

theorem mapError {ε₁ ε₂ : Type} {E' : ε₁ → ε₂ → Prop} (h : Agree E S x y) {f : ε → ε₁} {g : ε' → ε₂}
    (hfg : ∀ e e', E e e' → E' (f e) (g e')) : Agree E' S (x.mapError f) (y.mapError g) := by
  cases h with
  | ok hab => exact .ok hab
  | error he => exact .error (hfg _ _ he)

variable {P : γ → δ → Prop} {xs : List γ} {ys : List δ}

theorem mapM (hxs : List.Forall₂ P xs ys) {f : γ → Except ε α} {g : δ → Except ε' α}
    (hfg : ∀ x y, P x y → Agree E Eq (f x) (g y)) : Agree E Eq (xs.mapM f) (ys.mapM g) := by
  induction hxs with
  | nil => exact .ok rfl
  | cons hxy _ ih =>
    rw [List.mapM_cons, List.mapM_cons]
    exact (hfg _ _ hxy).bindSame fun a => ih.bindSame fun as => .ok rfl

theorem foldlM (hxs : List.Forall₂ P xs ys) {f : α → γ → Except ε α} {g : α → δ → Except ε' α}
    (hfg : ∀ a x y, P x y → Agree E Eq (f a x) (g a y)) (a : α) :
    Agree E Eq (xs.foldlM f a) (ys.foldlM g a) := by
  induction hxs generalizing a with
  | nil => exact .ok rfl
  | cons hxy _ ih =>
    rw [List.foldlM_cons, List.foldlM_cons]
    exact (hfg a _ _ hxy).bindSame ih

end Agree

/-- A fault without the numbers of nodes and constants. -/
def Fault.unnumbered : Fault → Fault
  | .danglingNode _ => .danglingNode default
  | .notATuple _ => .notATuple default
  | .unknownConstant what _ => .unknownConstant what default
  | fault => fault

/-- Faults that differ in numbers only. -/
def Fault.Alike (f f' : Fault) : Prop := f.unnumbered = f'.unnumbered

/-- Failures for alike faults in the same group, or for the same version. -/
inductive ShaderError.Alike : ShaderError → ShaderError → Prop
  | malformed {g f f'} (h : Fault.Alike f f') : Alike (.malformed g f) (.malformed g f')
  | unsupportedVersion (v) : Alike (.unsupportedVersion v) (.unsupportedVersion v)

theorem Agree.refl {α : Type} (x : Except Fault α) : Agree Fault.Alike Eq x x := by
  cases x with
  | ok a => exact .ok rfl
  | error f => exact .error rfl

/-! ## The same shape -/

/-- Values that are equal up to the numbers of constants: constants are the same, or both unknown. -/
inductive Value.SameReferent (p q : Program) : Value → Value → Prop
  | same {v} (hv : ∀ c, v ≠ .constant c) : SameReferent p q v v
  | constant {c d} (h : p.constant? c = q.constant? d) : SameReferent p q (.constant c) (.constant d)

/-- Nodes that are equal up to the numbers of constants and of nodes that `R` relates. -/
inductive Node.SameShape (p q : Program) (R : Handle .node → Handle .node → Prop) : Node → Node → Prop
  | string (text) : SameShape p q R (.string text) (.string text)
  | value {v w} (h : Value.SameReferent p q v w) : SameShape p q R (.value v) (.value w)
  | tuple {xs ys} (h : List.Forall₂ (Option.Rel R) xs ys) : SameShape p q R (.tuple xs) (.tuple ys)

/-- Two programs have metadata of the same shape: `R` relates nodes of the same shape, or that are missing
in both, and it relates the operands of the reserved entries. The metadata leads to the same globals and
functions. -/
structure Program.Alike (R : Handle .node → Handle .node → Prop) (p q : Program) : Prop where
  hasGlobal   : ∀ g, p.hasGlobal g = q.hasGlobal g
  hasFunction : ∀ f, p.hasFunction f = q.hasFunction f
  shared      : p.sharedGlobals = q.sharedGlobals
  nodes       : ∀ m n, R m n → Option.Rel (Node.SameShape p q R) (p.node? m) (q.node? n)
  entries     : ∀ g : Group, Option.Rel (List.Forall₂ R) (p.named? g.name) (q.named? g.name)

structure Source.Alike (R : Handle .node → Handle .node → Prop) (s s' : Source) : Prop where
  program : s.program.Alike R s'.program
  minor   : s.minor = s'.minor

/-- A reader goes by shape: of operands that are related in alike sources it reads the same. `place` is the
operand that is read. -/
structure GoesByShape {β α : Type} (place : β → Operand) (read : Source → β → Except Fault α) : Prop where
  agree : ∀ {R s s' x y}, Source.Alike R s s' → Option.Rel R (place x) (place y) →
    Agree Fault.Alike Eq (read s x) (read s' y)

namespace GoesByShape

variable {α β γ : Type} {place : β → Operand} {read : Source → β → Except Fault α}

theorem bind (h : GoesByShape place read) (f : α → Except Fault γ) :
    GoesByShape place fun s x => read s x >>= f where
  agree hs hxy := (h.agree hs hxy).bindSame fun a => .refl (f a)

theorem map (h : GoesByShape place read) (f : α → γ) : GoesByShape place fun s x => f <$> read s x where
  agree hs hxy := (h.agree hs hxy).map f

/-- A reader of a node as the reader of an operand that must not be null. -/
theorem needed {read : Source → Handle .node → Except Fault α} (h : GoesByShape some read)
    {get : Source → Operand → Except Fault α} {fault : Fault} (hsome : ∀ s n, get s (some n) = read s n)
    (hnone : ∀ s, get s none = .error fault) : GoesByShape id get where
  agree {R s s' x y} hs hxy := by
    change Option.Rel R x y at hxy
    cases hxy with
    | none =>
      rw [hnone, hnone]
      exact .error rfl
    | some hmn =>
      rw [hsome, hsome]
      exact h.agree hs (.some hmn)

end GoesByShape

/-! ## Scalars -/

namespace Source

variable {R : Handle .node → Handle .node → Prop} {s s' : Source} {m n : Handle .node} {a b : Operand}

theorem agree_node (hs : s.Alike R s') (hmn : R m n) :
    Agree Fault.Alike (Node.SameShape s.program s'.program R) (s.node m) (s'.node n) := by
  unfold node
  have hnodes := hs.program.nodes m n hmn
  generalize s.program.node? m = x, s'.program.node? n = y at hnodes ⊢
  cases hnodes with
  | none => exact .error rfl
  | some hnode => exact .ok hnode

theorem agree_operands (hs : s.Alike R s') (hmn : R m n) :
    Agree Fault.Alike (List.Forall₂ (Option.Rel R)) (s.operands m) (s'.operands n) := by
  refine (agree_node hs hmn).bind fun x y hxy => ?_
  cases hxy with
  | tuple hops => exact .ok hops
  | _ => exact .error rfl

theorem agree_list (hs : s.Alike R s') (hab : Option.Rel R a b) :
    Agree Fault.Alike (List.Forall₂ (Option.Rel R)) (s.list a) (s'.list b) := by
  cases hab with
  | none => exact .ok .nil
  | some hmn => exact agree_operands hs hmn

theorem agree_required (what : String) (hs : s.Alike R s') (hab : Option.Rel R a b) :
    Agree Fault.Alike (Node.SameShape s.program s'.program R) (s.required what a) (s'.required what b) := by
  cases hab with
  | none => exact .error rfl
  | some hmn => exact agree_node hs hmn

theorem agree_value (what : String) (hs : s.Alike R s') (hab : Option.Rel R a b) :
    Agree Fault.Alike (Value.SameReferent s.program s'.program) (s.value what a) (s'.value what b) := by
  refine (agree_required what hs hab).bind fun x y hxy => ?_
  cases hxy with
  | value h => exact .ok h
  | _ => exact .error rfl

theorem goesByShape_constant (what : String) : GoesByShape id fun s => s.constant what where
  agree {R s s' a b} hs hab := by
    refine (agree_value what hs hab).bind fun v w hvw => ?_
    cases hvw with
    | same hv =>
      cases v with
      | constant c => exact absurd rfl (hv c)
      | _ => exact .error rfl
    | @constant c d h =>
      simp only [h]
      cases s'.program.constant? d with
      | none => exact .error rfl
      | some k => exact .ok rfl

theorem goesByShape_string (what : String) : GoesByShape id fun s => s.string what where
  agree hs hab := by
    refine (agree_required what hs hab).bind fun x y hxy => ?_
    cases hxy with
    | string text => exact .ok rfl
    | _ => exact .error rfl

/-- A reader that goes on from a value, without looking into constants. -/
theorem goesByShape_of_value {α : Type} (what : String) {f : Source → Value → Except Fault α} {fault : Fault}
    (hsame : ∀ {R s s'}, Source.Alike R s s' → ∀ v, f s v = f s' v)
    (hconstant : ∀ s c, f s (.constant c) = .error fault) :
    GoesByShape id fun s op => s.value what op >>= f s where
  agree {R s s' a b} hs hab := by
    refine (agree_value what hs hab).bind fun v w hvw => ?_
    cases hvw with
    | same =>
      rw [hsame hs v]
      exact .refl _
    | constant =>
      rw [hconstant, hconstant]
      exact .error rfl

theorem goesByShape_global (what : String) : GoesByShape id fun s => s.global what := by
  refine goesByShape_of_value what (fun hs v => ?_) fun _ _ => rfl
  cases v with
  | global g => simp only [hs.program.hasGlobal g]
  | _ => rfl

theorem goesByShape_function (what : String) : GoesByShape id fun s => s.function what := by
  refine goesByShape_of_value what (fun hs v => ?_) fun _ _ => rfl
  cases v with
  | function f => simp only [hs.program.hasFunction f]
  | _ => rfl

theorem goesByShape_int (what : String) : GoesByShape id fun s => s.int what :=
  (goesByShape_constant what).bind _

theorem goesByShape_word (what : String) : GoesByShape id fun s => s.word what :=
  (goesByShape_constant what).bind _

theorem goesByShape_member {α : Type} [Numbered α] (what : String) :
    GoesByShape id fun s => (s.member what : Operand → Except Fault α) :=
  (goesByShape_word what).bind _

/-- An operand that may be null is null in both or in neither. -/
theorem goesByShape_optional {α : Type} {read : Source → Operand → Except Fault α} (h : GoesByShape id read) :
    GoesByShape id fun s => optional (read s) where
  agree {R s s' a b} hs hab := by
    change Option.Rel R a b at hab
    cases hab with
    | none => exact .ok rfl
    | some hmn => exact (h.agree hs (.some hmn)).map some

/-- A record of the same number of operands is cut off alike. -/
theorem agree_record (what : String) (arity : Nat) (hs : s.Alike R s') (hmn : R m n) :
    Agree Fault.Alike (List.Forall₂ (Option.Rel R)) (s.record what arity m) (s'.record what arity n) := by
  refine (agree_operands hs hmn).bind fun xs ys hxy => ?_
  simp only [hxy.length_eq, hs.minor]
  split
  · exact .error rfl
  · exact .ok (List.forall₂_take arity hxy)

end Source

/-! ## Layouts -/

theorem forall₂_zipIdx {α β : Type} {P : α → β → Prop} {xs : List α} {ys : List β} (h : List.Forall₂ P xs ys)
    (k : Nat) : List.Forall₂ (fun x y => P x.1 y.1 ∧ x.2 = y.2) (xs.zipIdx k) (ys.zipIdx k) := by
  induction h generalizing k with
  | nil => exact .nil
  | cons hxy _ ih => exact .cons ⟨hxy, rfl⟩ (ih (k + 1))

/-- What a cell reads goes by shape. -/
abbrev Cell.GoesByShape {α : Type} (c : Cell α) : Prop := ShaderModule.GoesByShape id c.get

/-- What a slot sets a field to goes by shape. -/
def Slot.GoesByShape {ρ : Type} (f : Slot ρ) : Prop :=
  ∀ x, ShaderModule.GoesByShape id fun s op => f.get s op x

abbrev Layout.GoesByShape {ρ : Type} (l : Layout ρ) : Prop := ShaderModule.GoesByShape some l.read

section Slot

variable {α ρ : Type} {c : Cell α} {f : Slot ρ}

@[simp] theorem Cell.goesByShape_field (hc : c.GoesByShape) (view : ρ → α) (update : ρ → α → ρ) :
    (c.field view update).GoesByShape :=
  fun x => hc.map (update x)

@[simp] theorem Cell.goesByShape_entry {n : Nat} (hc : c.GoesByShape) (view : ρ → Vector α n)
    (update : ρ → Vector α n → ρ) (i : Fin n) : (c.entry view update i).GoesByShape :=
  goesByShape_field hc _ _

@[simp] theorem Cell.goesByShape_extra (hc : c.GoesByShape) (view : ρ → α) (update : ρ → α → ρ) :
    (c.extra view update).GoesByShape :=
  goesByShape_field hc _ _

@[simp] theorem Slot.goesByShape_added (hf : f.GoesByShape) (minor : UInt32) : (f.added minor).GoesByShape := hf

@[simp] theorem Slot.goesByShape_checked (hf : f.GoesByShape) (fault? : ρ → Option Fault) :
    (f.checked fault?).GoesByShape :=
  fun x => (hf x).bind _

@[simp] theorem Slot.goesByShape_second {σ : Type} (hf : f.GoesByShape) :
    (f.second : Slot (σ × ρ)).GoesByShape :=
  fun x => (hf x.2).map _

end Slot

/-- A layout goes by shape if all its slots do: both records have the same number of operands, so the same
fields are read, in the same order. -/
theorem Layout.goesByShape_of_slots {ρ : Type} {l : Layout ρ} (h : ∀ f ∈ l.slots, f.GoesByShape) :
    l.GoesByShape where
  agree {R s s' m n} hs hmn := by
    cases hmn with
    | some hmn =>
      unfold read
      rw [hs.minor]
      refine (Source.agree_record l.what (l.arity s'.minor) hs hmn).bind fun xs ys hxy => ?_
      refine .foldlM (P := (· = ·)) (List.forall₂_refl l.order) ?_ l.blank
      rintro x i _ rfl
      unfold readField
      cases hf : l.slots[i]? with
      | none => exact .ok rfl
      | some f =>
        have hops := rel_getElem? hxy i
        generalize xs[i]? = a, ys[i]? = b at hops ⊢
        cases hops with
        | some hab => exact (h f (List.mem_of_getElem? hf) x).agree hs hab
        | none =>
          simp only [hs.minor]
          exact .refl _

/-! ## Cells -/

namespace Cell

variable {α : Type} (what : String)

@[simp] theorem goesByShape_word : (word what).GoesByShape := Source.goesByShape_word what

@[simp] theorem goesByShape_optionalWord : (optionalWord what).GoesByShape :=
  (Source.goesByShape_int what).bind _

@[simp] theorem goesByShape_bool : (bool what).GoesByShape := (Source.goesByShape_int what).bind _

@[simp] theorem goesByShape_single : (single what).GoesByShape := (Source.goesByShape_constant what).bind _

@[simp] theorem goesByShape_member [Numbered α] : (member what : Cell α).GoesByShape :=
  Source.goesByShape_member what

@[simp] theorem goesByShape_string : (string what).GoesByShape := Source.goesByShape_string what

@[simp] theorem goesByShape_optionalString : (optionalString what).GoesByShape :=
  Source.goesByShape_optional (Source.goesByShape_string what)

@[simp] theorem goesByShape_global : (global what).GoesByShape := Source.goesByShape_global what

@[simp] theorem goesByShape_optionalGlobal : (optionalGlobal what).GoesByShape :=
  Source.goesByShape_optional (Source.goesByShape_global what)

@[simp] theorem goesByShape_function : (function what).GoesByShape := Source.goesByShape_function what

@[simp] theorem goesByShape_optionalFunction : (optionalFunction what).GoesByShape :=
  Source.goesByShape_optional (Source.goesByShape_function what)

@[simp] theorem goesByShape_bytes : (bytes what).GoesByShape := (Source.goesByShape_constant what).bind _

@[simp] theorem goesByShape_placeholder : (placeholder what).GoesByShape :=
  (Source.goesByShape_constant what).bind _

@[simp] theorem goesByShape_stage : stage.GoesByShape := (Source.goesByShape_string _).bind _

@[simp] theorem goesByShape_words (whole each : String) : (words whole each).GoesByShape := by
  have h : ShaderModule.GoesByShape some fun s n => (do (← s.operands n).mapM (s.word each)) := by
    refine ⟨fun {R s s' m n} hs hmn => ?_⟩
    cases hmn with
    | some hmn =>
      refine (Source.agree_operands hs hmn).bind fun xs ys hxy => ?_
      exact .mapM hxy fun a b hab => (Source.goesByShape_word each).agree hs hab
  exact h.needed (fun _ _ => rfl) fun _ => rfl

variable {c : Cell α} {layout : Nat → Layout α} {l : Layout α}

@[simp] theorem goesByShape_record (missing : String) (hl : l.GoesByShape) : (record missing l).GoesByShape :=
  hl.needed (fun _ _ => rfl) fun _ => rfl

theorem goesByShape_readEntry (missing : Nat → String) (hl : ∀ i, (layout i).GoesByShape) (i : Nat) :
    ShaderModule.GoesByShape id fun s => readEntry missing layout s i :=
  (hl i).needed (fun _ _ => rfl) fun _ => rfl

@[simp] theorem goesByShape_list (missing : Nat → String) (hl : ∀ i, (layout i).GoesByShape) :
    (list missing layout).GoesByShape where
  agree hs hab := by
    refine (Source.agree_list hs hab).bind fun xs ys hxy => .mapM (forall₂_zipIdx hxy 0) ?_
    rintro ⟨a, i⟩ ⟨b, _⟩ ⟨hab, rfl⟩
    exact (goesByShape_readEntry missing hl i).agree hs hab

@[simp] theorem goesByShape_early : c.early.GoesByShape ↔ c.GoesByShape := .rfl

@[simp] theorem goesByShape_late : c.late.GoesByShape ↔ c.GoesByShape := .rfl

end Cell

/-! ## Records -/

section Records

open Layout (goesByShape_of_slots)

theorem Profile.goesByShape_layout : layout.GoesByShape :=
  goesByShape_of_slots (by simp [layout, Layout.inOrder])

theorem Options.goesByShape_layout : layout.GoesByShape :=
  goesByShape_of_slots (by simp [layout, Layout.inOrder])

theorem goesByShape_rootSignatureLayout : rootSignatureLayout.GoesByShape :=
  goesByShape_of_slots (by simp [rootSignatureLayout, Layout.inOrder])

@[simp] theorem FieldInfo.goesByShape_layout : layout.GoesByShape :=
  goesByShape_of_slots (by simp [layout, Layout.inOrder])

@[simp] theorem ParamInfo.goesByShape_layout : layout.GoesByShape :=
  goesByShape_of_slots (by simp [layout])

theorem StructInfo.goesByShape_layout : layout.GoesByShape :=
  goesByShape_of_slots (by simp [layout])

theorem FunctionInfo.goesByShape_layout : layout.GoesByShape :=
  goesByShape_of_slots (by simp [layout])

theorem ResourceTypes.goesByShape_layout : layout.GoesByShape :=
  goesByShape_of_slots (by simp [layout, Layout.inOrder])

/-! ### Signatures -/

@[simp] theorem Element.goesByShape_layout (kind : SignatureKind) (pos : Nat) :
    (layout kind pos).GoesByShape :=
  goesByShape_of_slots (by simp [layout])

@[simp] theorem Signatures.goesByShape_layout : layout.GoesByShape :=
  goesByShape_of_slots (by simp [layout, Layout.inOrder, Signature.cell])

theorem EntryPoint.goesByShape_layout : layout.GoesByShape :=
  goesByShape_of_slots (by simp [layout, Layout.inOrder])

/-! ### Resources -/

@[simp] theorem View.goesByShape_srvLayout (pos : Nat) : (srvLayout pos).GoesByShape :=
  goesByShape_of_slots (by simp [srvLayout, Layout.inOrder, Bound.slots, slots])

@[simp] theorem View.goesByShape_uavLayout (pos : Nat) : (uavLayout pos).GoesByShape :=
  goesByShape_of_slots (by simp [uavLayout, Bound.slots, slots])

@[simp] theorem ConstantBuffer.goesByShape_layout (pos : Nat) : (layout pos).GoesByShape :=
  goesByShape_of_slots (by simp [layout, Layout.inOrder, Bound.slots])

@[simp] theorem Sampler.goesByShape_layout (pos : Nat) : (layout pos).GoesByShape :=
  goesByShape_of_slots (by simp [layout, Layout.inOrder, Bound.slots])

theorem Registry.goesByShape_layout : layout.GoesByShape :=
  goesByShape_of_slots (by simp [layout, Layout.inOrder, Bound.cell])

/-! ### Stage properties -/

namespace StageProps

/-- The stage is passed over in the header. -/
theorem goesByShape_header {σ : Type} (stage : Stage) :
    ∀ f ∈ (header stage : List (Slot (Handle .function × σ))), f.GoesByShape := by
  have hstage : ∀ put, (⟨0, put, fun _ _ x => .ok x⟩ : Slot (Handle .function × σ)).GoesByShape :=
    fun _ _ => ⟨fun _ _ => .ok rfl⟩
  simp [header, hstage]

theorem goesByShape_slots {σ : Type} {stage : Stage} {slots : List (Slot σ)} (h : ∀ f ∈ slots, f.GoesByShape) :
    ∀ f ∈ header stage ++ slots.map Slot.second, f.GoesByShape := by
  refine List.forall_mem_append.2 ⟨goesByShape_header stage, List.forall_mem_map.2 fun f hf => ?_⟩
  exact Slot.goesByShape_second (h f hf)

end StageProps

theorem ComputeProps.goesByShape_layout : layout.GoesByShape :=
  goesByShape_of_slots (StageProps.goesByShape_slots (by simp))

theorem GeometryProps.goesByShape_layout : layout.GoesByShape :=
  goesByShape_of_slots (StageProps.goesByShape_slots (by simp [or_imp, forall_and]))

theorem HullProps.goesByShape_layout : layout.GoesByShape :=
  goesByShape_of_slots (StageProps.goesByShape_slots (by simp))

theorem DomainProps.goesByShape_layout : layout.GoesByShape :=
  goesByShape_of_slots (StageProps.goesByShape_slots (by simp))

theorem VertexProps.goesByShape_layout : layout.GoesByShape :=
  goesByShape_of_slots (StageProps.goesByShape_slots (by simp))

theorem PixelProps.goesByShape_layout : layout.GoesByShape :=
  goesByShape_of_slots (StageProps.goesByShape_slots (by simp))

end Records

/-! ## Several records -/

namespace StageProps

theorem goesByShape_readStage : GoesByShape some readStage where
  agree hs hmn := by
    cases hmn with
    | some hmn =>
      refine (Source.agree_operands hs hmn).bind fun xs ys hxy => ?_
      match hxy with
      | .nil => exact .error rfl
      | .cons _ .nil => exact .error rfl
      | .cons _ (.cons hab _) => exact (Source.goesByShape_member (α := Stage) _).agree hs hab

theorem goesByShape_readOf (stage : Stage) : GoesByShape some (readOf stage) := by
  cases stage with
  | compute => exact ComputeProps.goesByShape_layout.map _
  | geometry => exact GeometryProps.goesByShape_layout.map _
  | hull => exact HullProps.goesByShape_layout.map _
  | domain => exact DomainProps.goesByShape_layout.map _
  | vertex => exact VertexProps.goesByShape_layout.map _
  | pixel => exact PixelProps.goesByShape_layout.map _

/-- The stage is read alike, so the rest is read by the same layout. -/
theorem goesByShape_read : GoesByShape some read where
  agree hs hmn := by
    rw [read_eq, read_eq]
    exact (goesByShape_readStage.agree hs hmn).bindSame fun stage => (goesByShape_readOf stage).agree hs hmn

end StageProps

theorem Options.goesByShape_read : GoesByShape some Options.read where
  agree {R s s' m n} hs hmn := by
    unfold read
    rw [hs.minor]
    exact (goesByShape_layout.agree hs hmn).bindSame fun _ => .refl _

theorem Source.goesByShape_readTable {kind : Kind} {α : Type} {l : Layout (Handle kind × α)}
    (hl : l.GoesByShape) : GoesByShape some fun s n => s.readTable l n where
  agree hs hmn := by
    cases hmn with
    | some hmn =>
      refine (agree_operands hs hmn).bind fun xs ys hxy => .foldlM hxy ?_ _
      intro table a b hab
      cases hab with
      | none => exact .error rfl
      | some hab => exact (hl.agree hs (.some hab)).bindSame fun _ => .ok rfl

end ShaderModule
